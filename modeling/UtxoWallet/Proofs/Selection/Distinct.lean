import Mathlib.Data.List.Pairwise
import UtxoWallet.Proofs.Selection.Accounts

/-! # A selection takes each coin once

Coins are taken from the beginning of the queue of their token, and the queues of two tokens have no
coin in common. So what holds of any two of the given coins, in either order, holds of any two of the
selected ones: `Selection.pairwise_ofImbalances`.
-/

namespace UtxoWallet

namespace Selection

variable {γ : Type} [Spendable γ] {R : γ → γ → Prop} [Std.Symm R] {coins : List γ}
  (apart : coins.Pairwise R)

include apart

/-- A token's candidates are its coins in another order. -/
theorem pairwise_candidates (token : TokenType) : (candidates coins token).Pairwise R :=
  (List.Perm.pairwise_iff (Std.Symm.symm _ _) (List.mergeSort_perm _ _)).mpr (apart.filter _)

/-- What is chosen for one token is a beginning of its candidates. -/
theorem pairwise_ofToken {token : TokenType} {imbalance : Delta} {s : Selection γ}
    (h : ofToken coins token imbalance = .ok s) : s.inputs.Pairwise R := by
  obtain ⟨⟨inputs, total⟩, hgather, h⟩ := bind_eq_ok.mp h
  obtain ⟨taken, -⟩ := gather_accounts (fun _ hmem => (mem_candidates hmem).2) hgather
  dsimp only at h
  split at h
  · cases h
  · cases h
    exact (pairwise_candidates apart token).sublist taken.sublist

/-- Two of the given coins that differ in their tokens are two coins. -/
theorem apart_of_token_ne {a b : γ} (ha : a ∈ coins) (hb : b ∈ coins)
    (hne : Spendable.token a ≠ Spendable.token b) : R a b := by
  apply apart.forall ha hb
  rintro rfl
  exact hne rfl

/-- Parts for different tokens share no coin. -/
theorem pairwise_parts {entries : List (TokenType × Delta)} {parts : List (Selection γ)}
    (distinct : entries.Pairwise fun a b => a.1 ≠ b.1)
    (h : entries.mapM (fun entry => ofToken coins entry.1 entry.2) = .ok parts) :
    (parts.flatMap (·.inputs)).Pairwise R := by
  induction entries generalizing parts with
  | nil =>
      cases h
      exact .nil
  | cons entry entries ih =>
      obtain ⟨part, rest, hpart, hrest, rfl⟩ := mapM_cons_eq_ok.mp h
      obtain ⟨other, distinct⟩ := List.pairwise_cons.mp distinct
      rw [List.flatMap_cons, List.pairwise_append]
      refine ⟨pairwise_ofToken apart hpart, ih distinct hrest, fun a ha b hb => ?_⟩
      obtain ⟨later, hlater, hb⟩ := List.mem_flatMap.mp hb
      obtain ⟨source, hsource, hlater⟩ := exists_of_mem_mapM hrest later hlater
      obtain ⟨hown, hgiven, -⟩ := ofToken_accounts hpart
      obtain ⟨hforeign, hheld, -⟩ := ofToken_accounts hlater
      apply apart_of_token_ne apart (hgiven a ha) (hheld b hb)
      rw [hown.1 a ha, hforeign.1 b hb]
      exact other source hsource

/-- No coin is chosen twice: a relation between any two coins in the list holds between any two of
the chosen ones. -/
theorem pairwise_ofImbalances {imbalances : OrderedMap TokenType Delta} {fees : Fees}
    {native : TokenType} {s : Selection γ}
    (h : ofImbalances coins imbalances fees native = .ok s) : s.inputs.Pairwise R := by
  obtain ⟨parts, hparts, h⟩ := bind_eq_ok.mp h
  obtain ⟨more, hmore, h⟩ := bind_eq_ok.mp h
  cases h
  have hnative := (ofNative_accounts hmore).1
  obtain ⟨owed, -, hmore⟩ := bind_eq_ok.mp hmore
  obtain ⟨base, -, hmore⟩ := bind_eq_ok.mp hmore
  have taken := prefix_of_gatherNative hmore
  rw [foldl_append]
  -- Coins of the two halves differ in their token.
  refine List.pairwise_append.mpr ⟨?_, ?_, fun a ha b hb => ?_⟩
  · exact pairwise_parts apart (imbalances.distinct_entries.filter _) hparts
  · exact (pairwise_candidates apart native).sublist taken.sublist
  · obtain ⟨part, hpart, ha⟩ := List.mem_flatMap.mp ha
    obtain ⟨entry, hentry, hpart⟩ := exists_of_mem_mapM hparts part hpart
    obtain ⟨hown, hgiven, -⟩ := ofToken_accounts hpart
    apply apart_of_token_ne apart (hgiven a ha) (mem_candidates (taken.subset hb)).1
    rw [hown.1 a ha, hnative.1 b hb]
    exact of_decide_eq_true (List.mem_filter.mp hentry).2

end Selection

end UtxoWallet
