import UtxoWallet.Transaction
import UtxoWallet.Wire

/-!
# The supply of bindings

Every new intent draws a binding. What the draws give comes from outside, as a function without any
assumption on it: it may be random, and it may repeat itself.

The console draws from the supply that numbers its bindings from 1 on, so that a run can be repeated
exactly; each has the form of a random identifier of version 4, with the number in its last six bytes.
Two bindings of this supply differ as long as their numbers fit.
-/

namespace UtxoWallet

/-- The binding with a number. -/
def Binding.numbered (n : Nat) : Binding :=
  ⟨[0, 0, 0, 0, 0, 0, 0x40, 0, 0x80, 0] ++ (Wire.littleEndian 6 n).reverse, by
    simp [Wire.littleEndian]⟩

/-- A supply of bindings, of which some are drawn already. -/
structure BindingSource where
  /-- What a draw gives, by the number of draws before it. -/
  draw : Nat → Binding
  drawn : Nat

namespace BindingSource

/-- The supply of numbered bindings that nothing is drawn from yet. -/
def fresh : BindingSource :=
  ⟨fun drawn => Binding.numbered (drawn + 1), 0⟩

def next (source : BindingSource) : Binding :=
  source.draw source.drawn

/-- The supply after the next binding is drawn. -/
def rest (source : BindingSource) : BindingSource :=
  { source with drawn := source.drawn + 1 }

end BindingSource

end UtxoWallet
