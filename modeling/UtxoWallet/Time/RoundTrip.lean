import UtxoWallet.Time.Timestamp

/-!
# Written instants read back

What is written of an instant is read as the instant that the text shows (`Timestamp.read?_write`),
years of more than four digits included. A clock shows a leap second as second 60, at the end of a
minute. So a leap second within a minute has no text of its own, but that of the second after it: it
does not come back, nor is any text read as it. All other instants come back, and are just those that
are ever read (`Timestamp.read?_write_eq_some_iff`, `Timestamp.exists_read?_iff`).

The reader goes through the text part by part: a part is read off in full because what follows it, a
mark or the final `Z`, is no digit, and marks and digits are not blank. What it has read is the date
and the time of the day that the shown instant falls on, and these add up to the instant.
-/

namespace UtxoWallet

/-! ### What a clock shows -/

namespace Instant

variable {t : Instant}

/-- Can a text stand for the instant? A leap second has to end a minute. -/
def Representable (t : Instant) : Prop :=
  nanosPerSecond ≤ t.nanos → t.seconds % 60 = 59

instance (t : Instant) : Decidable t.Representable :=
  inferInstanceAs (Decidable (nanosPerSecond ≤ t.nanos → t.seconds % 60 = 59))

/-- The instant that the text of an instant shows: a leap second within a minute is shown as the
second after it. -/
def shown (t : Instant) : Instant :=
  if h : nanosPerSecond ≤ t.nanos ∧ t.seconds % 60 ≠ 59 then
    -- The last second of all ends a minute.
    ⟨t.seconds + 1, t.nanos - nanosPerSecond, Int.le_add_one t.lower,
      by have := t.upper; omega, Nat.lt_of_le_of_lt (Nat.sub_le _ _) t.nanos_lt⟩
  else t

theorem parts_shown (h : nanosPerSecond ≤ t.nanos) (inside : t.seconds % 60 ≠ 59) :
    t.shown.seconds = t.seconds + 1 ∧ t.shown.nanos = t.nanos - nanosPerSecond := by
  rw [shown, dif_pos ⟨h, inside⟩]
  exact ⟨rfl, rfl⟩

theorem shown_of_representable (h : t.Representable) : t.shown = t :=
  dif_neg fun leap => leap.2 (h leap.1)

/-- What is shown can be read. -/
theorem representable_shown (t : Instant) : t.shown.Representable := by
  by_cases h : t.Representable
  · rw [shown_of_representable h]
    exact h
  · obtain ⟨leap, inside⟩ := Classical.not_imp.mp h
    intro leap'
    -- What is left of the fraction is less than a second.
    have nanos := t.nanos_lt
    rw [(parts_shown leap inside).2] at leap'
    omega

theorem shown_eq_self_iff : t.shown = t ↔ t.Representable := by
  refine ⟨fun h => ?_, shown_of_representable⟩
  rw [← h]
  exact representable_shown t

end Instant

/-! ### Years -/

namespace Date

theorem day_le {date : Date} (h : date.Exists) : date.day ≤ 31 := by
  refine Nat.le_trans h.2.2 ?_
  unfold daysInMonth
  split
  · split <;> decide
  · split <;> decide

/-- In years counted from March, the day number tells the year up to its days. -/
theorem dayNumber_bounds {date : Date} (h : date.Exists) :
    ∃ year day : Int, (year = date.year ∧ 0 ≤ day ∧ day ≤ 305 ∨
        year = date.year - 1 ∧ 306 ≤ day ∧ day ≤ 367) ∧
      date.dayNumber = 365 * year + year / 4 - year / 100 + year / 400 + day - daysBeforeEpoch := by
  have last := day_le h
  obtain ⟨⟨month1, month12⟩, day1, -⟩ := h
  unfold dayNumber
  dsimp only
  generalize hy : (if date.month ≤ 2 then date.year - 1 else date.year) = year
  refine ⟨year, daysBeforeMonth ((date.month + 9) % 12) + (date.day - 1), ?_, ?_⟩
  · unfold daysBeforeMonth
    split at hy <;> omega
  · unfold daysBeforeYear daysInCycle
    generalize daysBeforeMonth ((date.month + 9) % 12) = a
    omega

/-- The dates of the instants have years from -262143 to 262142. -/
theorem year_ofDayNumber_bounds {n : Int} (lower : -96465292 ≤ n) (upper : n ≤ 95026236) :
    -262143 ≤ (ofDayNumber n).year ∧ (ofDayNumber n).year ≤ 262142 := by
  obtain ⟨year, day, year_eq, number⟩ := dayNumber_bounds (exists_ofDayNumber n)
  rw [dayNumber_ofDayNumber] at number
  unfold daysBeforeEpoch at number
  constructor
  · by_cases (ofDayNumber n).year = -262144 <;> omega
  · by_cases (ofDayNumber n).year = 262143 <;> omega

end Date

namespace Timestamp

open UtxoWallet.Text

/-! ### Numbers -/

theorem isBlank_of_isDigit {c : Char} (h : c.isDigit) : isBlank c = false := by
  simp only [Char.isDigit, Bool.and_eq_true, decide_eq_true_eq] at h
  have bounds : 48 ≤ c.toNat ∧ c.toNat ≤ 57 := h
  simp [isBlank, blankRanges]
  omega

theorem skipBlanks_cons {c : Char} (h : isBlank c = false) (s : List Char) :
    skipBlanks (c :: s) = c :: s := by
  simp [skipBlanks, h]

/-- Digits are the leading digits of a text if they are as many as may be, or nothing that follows
belongs to them. -/
theorem leadingDigits_append {most : Nat} {s rest : List Char} (digits : ∀ c ∈ s, c.isDigit)
    (short : s.length ≤ most) (h : s.length = most ∨ rest.head?.all (!·.isDigit)) :
    leadingDigits most (s ++ rest) = s := by
  rw [leadingDigits, List.take_append, List.take_of_length_le short,
    List.takeWhile_append_of_pos digits]
  rcases h with full | ends
  · simp [full]
  · cases rest with
    | nil => simp
    | cons c rest =>
      have : c.isDigit = false := by simpa using ends
      cases most - s.length <;> simp [this]

theorem number?_append {most : Nat} {s rest : List Char} (digits : ∀ c ∈ s, c.isDigit)
    (present : s ≠ []) (short : s.length ≤ most)
    (h : s.length = most ∨ rest.head?.all (!·.isDigit)) :
    number? most (s ++ rest) = some (Decimal.ofDigits s, rest) := by
  simp [number?, leadingDigits_append digits short h, present]

theorem number?_pad {n : Nat} (h : n < 100) (rest : List Char) :
    number? 2 (Decimal.pad 2 n ++ rest) = some (n, rest) := by
  have length := @Decimal.length_pad 2 n (by decide) h
  rw [number?_append (fun _ => Decimal.isDigit_of_mem_pad) (Decimal.pad_ne_nil 2 n) (by omega)
    (.inl length), Decimal.ofDigits_pad]

theorem skipBlanks_pad (width n : Nat) (rest : List Char) :
    skipBlanks (Decimal.pad width n ++ rest) = Decimal.pad width n ++ rest := by
  obtain ⟨c, s, parts⟩ := List.exists_cons_of_ne_nil (Decimal.pad_ne_nil width n)
  rw [parts, List.cons_append]
  exact skipBlanks_cons
    (isBlank_of_isDigit (Decimal.isDigit_of_mem_pad (parts ▸ List.mem_cons_self))) _

theorem marked?_pad {mark : Char} (visible : isBlank mark = false) {n : Nat} (h : n < 100)
    (rest : List Char) : marked? mark (mark :: (Decimal.pad 2 n ++ rest)) = some (n, rest) := by
  rw [marked?, skipBlanks_cons visible]
  simp only [if_true, skipBlanks_pad, number?_pad h]

theorem skipBlanks_writeYear (year : Int) (rest : List Char) :
    skipBlanks (writeYear year ++ rest) = writeYear year ++ rest := by
  unfold writeYear
  split
  · exact skipBlanks_cons (by decide) _
  · split
    · exact skipBlanks_cons (by decide) _
    · exact skipBlanks_pad 4 _ rest

theorem year?_writeYear (year : Int) {rest : List Char} (h : rest.head?.all (!·.isDigit)) :
    year? (writeYear year ++ rest) = some (year, rest) := by
  have signed : ∀ n, number? (Decimal.pad 4 n ++ rest).length (Decimal.pad 4 n ++ rest) =
      some (n, rest) := fun n => by
    rw [number?_append (fun _ => Decimal.isDigit_of_mem_pad) (Decimal.pad_ne_nil 4 n) (by simp)
      (.inr h), Decimal.ofDigits_pad]
  unfold writeYear
  split
  · next negative =>
    rw [List.cons_append, year?, signed]
    simp
    omega
  · split
    · rw [List.cons_append, year?, signed]
      simp
      omega
    · next nonnegative four =>
      have length := @Decimal.length_pad 4 year.toNat (by decide) (show year.toNat < 10 ^ 4 by omega)
      have plain : number? 4 (Decimal.pad 4 year.toNat ++ rest) = some (year.toNat, rest) := by
        rw [number?_append (fun _ => Decimal.isDigit_of_mem_pad) (Decimal.pad_ne_nil 4 _)
          (by omega) (.inr h), Decimal.ofDigits_pad]
      obtain ⟨c, s, parts⟩ := List.exists_cons_of_ne_nil (Decimal.pad_ne_nil 4 year.toNat)
      have isDigit : c.isDigit := Decimal.isDigit_of_mem_pad (parts ▸ List.mem_cons_self)
      have notMinus : c ≠ '-' := by rintro rfl; cases isDigit
      have notPlus : c ≠ '+' := by rintro rfl; cases isDigit
      rw [parts] at plain ⊢
      simp only [List.cons_append] at plain ⊢
      unfold year?
      split
      · simp_all
      · simp_all
      · rw [plain]
        simp
        omega

theorem fraction?_writeFraction {n : Nat} (h : n < nanosPerSecond) :
    fraction? (writeFraction n ++ ['Z']) = some (n, ['Z']) := by
  have digits : ∀ width m, 0 < width → width ≤ 9 → m < 10 ^ width →
      fraction? ('.' :: Decimal.pad width m ++ ['Z']) =
        some (m * 10 ^ (9 - width), ['Z']) := fun width m positive short fits => by
    have length := Decimal.length_pad positive fits
    rw [List.cons_append, fraction?, leadingDigits_append (fun _ => Decimal.isDigit_of_mem_pad)
      (by omega) (.inr rfl), List.dropWhile_append_of_pos fun _ => Decimal.isDigit_of_mem_pad]
    simp [Decimal.pad_ne_nil, Decimal.ofDigits_pad, length]
  unfold nanosPerSecond at h
  unfold writeFraction
  split
  · next zero => subst zero; rfl
  · split
    · rw [digits 3 _ (by decide) (by decide) (by omega)]
      congr 2
      omega
    · split
      · rw [digits 6 _ (by decide) (by decide) (by omega)]
        congr 2
        omega
      · rw [digits 9 _ (by decide) (by decide) (by omega)]
        congr 2
        omega

/-! ### Instants -/

/-- A clock without offset shows the date and the time that are written for `t` at the instant that
they show. -/
theorem ofLocal?_parts (t : Instant) :
    ofLocal? (Date.ofDayNumber (t.seconds / 86400)) ((t.seconds % 86400).toNat / 3600)
      ((t.seconds % 86400).toNat / 60 % 60)
      ((t.seconds % 86400).toNat % 60 + t.nanos / nanosPerSecond)
      (t.nanos % nanosPerSecond) 0 = some t.shown := by
  have lower := t.lower
  have upper := t.upper
  have years := @Date.year_ofDayNumber_bounds (t.seconds / 86400) (by omega) (by omega)
  have exists_ := Date.exists_ofDayNumber (t.seconds / 86400)
  have number := Date.dayNumber_ofDayNumber (t.seconds / 86400)
  have nanos := t.nanos_lt
  rw [ofLocal?, number, if_pos]
  · by_cases leap : nanosPerSecond ≤ t.nanos
    · by_cases ends : t.seconds % 60 = 59
      · have hshown : t.shown = t := Instant.shown_of_representable fun _ => ends
        unfold nanosPerSecond at *
        have second : (t.seconds % 86400).toNat % 60 + t.nanos / 1000000000 = 60 := by omega
        rw [second, if_pos rfl, hshown, ← Instant.ofParts?_parts t]
        congr 1 <;> omega
      · obtain ⟨hseconds, hnanos⟩ := Instant.parts_shown leap ends
        unfold nanosPerSecond at *
        have second : (t.seconds % 86400).toNat % 60 + t.nanos / 1000000000 ≠ 60 := by omega
        rw [if_neg second, ← Instant.ofParts?_parts t.shown, hseconds, hnanos]
        exact congr (congrArg Instant.ofParts? (by omega)) (by omega)
    · have hshown : t.shown = t := Instant.shown_of_representable fun h => absurd h leap
      unfold nanosPerSecond at *
      have second : (t.seconds % 86400).toNat % 60 + t.nanos / 1000000000 ≠ 60 := by omega
      rw [if_neg second, hshown, ← Instant.ofParts?_parts t]
      congr 1 <;> omega
  · unfold nanosPerSecond at *
    exact ⟨exists_, years.1, years.2, by omega, by omega, by omega⟩

theorem readChars?_writeChars (t : Instant) : readChars? (writeChars t) = some t.shown := by
  have parts := ofLocal?_parts t
  have nanos := t.nanos_lt
  obtain ⟨⟨-, month12⟩, -, -⟩ := Date.exists_ofDayNumber (t.seconds / 86400)
  have day31 := Date.day_le (Date.exists_ofDayNumber (t.seconds / 86400))
  have nanosInSecond : t.nanos % nanosPerSecond < nanosPerSecond :=
    Nat.mod_lt _ (by decide)
  unfold writeChars
  simp only
  generalize Date.ofDayNumber (t.seconds / 86400) = date at *
  have inDay : (t.seconds % 86400).toNat < 86400 := by omega
  generalize (t.seconds % 86400).toNat = time at *
  have second : time % 60 + t.nanos / nanosPerSecond < 100 := by
    unfold nanosPerSecond at *
    omega
  simp only [List.append_assoc, List.cons_append]
  unfold readChars?
  simp only [skipBlanks_writeYear]
  rw [year?_writeYear _ rfl]
  have month := @marked?_pad '-' (by decide) date.month (by omega)
  have day := @marked?_pad '-' (by decide) date.day (by omega)
  have hour := @number?_pad (time / 3600) (by omega)
  have minute := @marked?_pad ':' (by decide) (time / 60 % 60) (by omega)
  have second := @marked?_pad ':' (by decide) _ second
  have separates : ∀ s, separator? ('T' :: s) = some s := fun _ => rfl
  have utc : skipBlanks ['Z'] = ['Z'] := by decide
  have fraction := fraction?_writeFraction nanosInSecond
  have offset : offset? ['Z'] = some (0, []) := rfl
  simp only [month, day, hour, minute, second, separates, skipBlanks_pad, fraction, utc, offset,
    Option.bind_eq_bind, Option.bind_some]
  exact parts

/-- What is written of an instant is read as the instant that is shown. -/
theorem read?_write (t : Instant) : read? (write t) = some t.shown := by
  rw [read?, write, String.toList_ofList, readChars?_writeChars]

/-! ### Whatever is read -/

theorem fraction?_lt {s rest : List Char} {n : Nat} (h : fraction? s = some (n, rest)) :
    n < nanosPerSecond := by
  unfold fraction? at h
  split at h
  · next s =>
    dsimp only at h
    split at h
    · cases h
    · cases h
      have digits : ∀ c ∈ leadingDigits 9 s, c.isDigit := fun c hmem =>
        List.all_eq_true.mp List.all_takeWhile c hmem
      have short : (leadingDigits 9 s).length ≤ 9 :=
        Nat.le_trans (List.takeWhile_sublist _).length_le (List.length_take_le 9 s)
      have scaled : Nat.pow 10 (leadingDigits 9 s).length *
          Nat.pow 10 (9 - (leadingDigits 9 s).length) = nanosPerSecond :=
        (Nat.pow_add 10 _ _).symm.trans (congrArg (Nat.pow 10) (Nat.add_sub_cancel' short))
      rw [← scaled]
      exact Nat.mul_lt_mul_of_pos_right (Decimal.ofDigits_lt digits) (Nat.pow_pos (by decide))
  · cases h
    decide

theorem representable_of_ofLocal? {date : Date} {hour minute second nanos : Nat} {offset : Int}
    {t : Instant} (proper : nanos < nanosPerSecond)
    (h : ofLocal? date hour minute second nanos offset = some t) : t.Representable := by
  rw [ofLocal?] at h
  split at h
  · dsimp only at h
    split at h
    · have hseconds := (Instant.parts_of_ofParts? h).1
      intro _
      omega
    · have hnanos := (Instant.parts_of_ofParts? h).2
      intro leap
      omega
  · cases h

/-- A text tells seconds up to 60, and only the last of them is a leap second. -/
theorem representable_of_read? {text : String} {t : Instant} (h : read? text = some t) :
    t.Representable := by
  simp only [read?, readChars?, Option.bind_eq_bind] at h
  obtain ⟨⟨year, s⟩, -, h⟩ := Option.bind_eq_some_iff.mp h
  obtain ⟨⟨month, s⟩, -, h⟩ := Option.bind_eq_some_iff.mp h
  obtain ⟨⟨day, s⟩, -, h⟩ := Option.bind_eq_some_iff.mp h
  obtain ⟨s, -, h⟩ := Option.bind_eq_some_iff.mp h
  obtain ⟨⟨hour, s⟩, -, h⟩ := Option.bind_eq_some_iff.mp h
  obtain ⟨⟨minute, s⟩, -, h⟩ := Option.bind_eq_some_iff.mp h
  obtain ⟨⟨second, s⟩, -, h⟩ := Option.bind_eq_some_iff.mp h
  obtain ⟨⟨nanos, s⟩, hnanos, h⟩ := Option.bind_eq_some_iff.mp h
  obtain ⟨⟨offset, s⟩, -, h⟩ := Option.bind_eq_some_iff.mp h
  split at h
  · exact representable_of_ofLocal? (fraction?_lt hnanos) h
  · cases h

/-- An instant comes back from its text if and only if a text can stand for it. -/
theorem read?_write_eq_some_iff {t : Instant} : read? (write t) = some t ↔ t.Representable := by
  rw [read?_write, Option.some_inj, Instant.shown_eq_self_iff]

theorem exists_read?_iff {t : Instant} : (∃ text, read? text = some t) ↔ t.Representable :=
  ⟨fun ⟨_, h⟩ => representable_of_read? h, fun h => ⟨write t, read?_write_eq_some_iff.mpr h⟩⟩

/-- Two instants of one text: a leap second within a minute, and the second after it. -/
example : write ⟨30, 1333333333, by decide, by decide, by decide⟩ =
    write ⟨31, 333333333, by decide, by decide, by decide⟩ := by
  decide +kernel

/-! ### In JSON -/

theorem ofJson?_toJson_iff {t : Instant} : ofJson? (toJson t) = some t ↔ t.Representable := by
  show (some (write t)).bind read? = some t ↔ _
  rw [Option.bind_some, read?_write_eq_some_iff]

theorem representable_of_ofJson? {json : Json} {t : Instant} (h : ofJson? json = some t) :
    t.Representable := by
  obtain ⟨text, -, h⟩ := Option.bind_eq_some_iff.mp h
  exact representable_of_read? h

end Timestamp

end UtxoWallet
