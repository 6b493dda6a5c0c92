import Mathlib
import Etherzero.Swarm.Pot

/-!
# Remove keeps the value it removes

`remove` is meant to return the pot without the value. When the value is not key-equal to the root's pin, its loop
over the bins takes the value out of the bin of its proximity order, or finds no such bin. Either way, the pot it
builds is pinned at `val`, the value it was asked to remove, where it should keep `t.pin`: the root's value is lost
and the removed value stays, while the size goes down as if the value had been taken out. TestPotRemove expects
this outcome.
-/

namespace Etherzero.Swarm

variable {α : Type} (pof : Option α → Option α → Nat → Nat × Bool)

/-- `remove` at a pot whose pin is not key-equal to the value: the loop over the bins decides. -/
theorem remove_of_not_found (t : Pot α) (val : α) (hroot : (pof t.pin (some val) t.po).2 = false) :
    remove pof t val =
      match removeFromBins pof val (pof t.pin (some val) t.po).1 t.bins with
      | none => none
      | some .stop => some (t, (pof t.pin (some val) t.po).1, false)
      | some (.done bins po found) =>
        some (⟨some val, bins, if found then t.size - 1 else t.size, t.po⟩, po, found) := by
  obtain ⟨pin, bins, size, tpo⟩ := t
  simp only at hroot ⊢
  rw [remove]
  -- the root's pin is not key-equal: `remove` goes to the bins with the proximity order
  generalize pof pin (some val) tpo = r at hroot ⊢
  obtain ⟨po, found⟩ := r
  cases hroot
  rfl

/-- Unless it stops at a bin beyond the value's proximity order and returns `t`, a `remove` of a value that is not
key-equal to the root's pin returns a pot pinned at that value: the pin of `t` is dropped, and the value `remove`
was given is kept, whether or not a key-equal value was found in the bins. -/
theorem remove_repins_at_removed_value (t r : Pot α) (val : α) (po : Nat) (found : Bool)
    (hroot : (pof t.pin (some val) t.po).2 = false) (hr : remove pof t val = some (r, po, found)) :
    r = t ∨ r.pin = some val := by
  rw [remove_of_not_found pof t val hroot] at hr
  split at hr
  · cases hr
  · -- a bin beyond the value's proximity order: nothing to remove
    cases hr
    exact .inl rfl
  · cases hr
    exact .inr rfl

/-- Keys of one byte, compared as by `DefaultPof(8)`. -/
def bytePof : Option (List UInt8) → Option (List UInt8) → Nat → Nat × Bool := defaultPof 8 id

/-- The pot of `00000000` with `00111100` in its bin of proximity order 2. -/
def twoKeyPot : Pot (List UInt8) := (add bytePof (add bytePof (newPot none 0) [0x00]).1 [0x3c]).1

theorem remove_repins_two_key_pot :
    (bytePof twoKeyPot.pin (some [0x3c]) twoKeyPot.po).2 = false ∧
      remove bytePof twoKeyPot [0x3c] = some (⟨some [0x3c], [], 1, 0⟩, 8, true) ∧
      ((⟨some [0x3c], [], 1, 0⟩ : Pot (List UInt8)) = twoKeyPot ∨
        (⟨some [0x3c], [], 1, 0⟩ : Pot (List UInt8)).pin = some [0x3c]) ∧
      twoKeyPot.visit.1 = [(some [0x3c], 2), (some [0x00], 0)] ∧
      (⟨some [0x3c], [], 1, 0⟩ : Pot (List UInt8)).visit.1 = [(some [0x3c], 0)] :=
  have hroot : (bytePof twoKeyPot.pin (some [0x3c]) twoKeyPot.po).2 = false := by decide
  have hr : remove bytePof twoKeyPot [0x3c] = some (⟨some [0x3c], [], 1, 0⟩, 8, true) := rfl
  ⟨hroot, hr, remove_repins_at_removed_value bytePof _ _ _ _ _ hroot hr, by decide, by decide⟩


/-- Test values: key bytes and the index `newTestAddr` gives them. -/
def testPof : Option (List UInt8 × Nat) → Option (List UInt8 × Nat) → Nat → Nat × Bool := defaultPof 8 Prod.fst

/-- The pot of TestPotRemove before its second `Remove`. -/
def testRemovePot : Option (Pot (List UInt8 × Nat)) :=
  let n := (add testPof (add testPof (add testPof (add testPof ⟨none, [], 0, 0⟩ ([0x00], 1)).1 ([0x7c], 2)).1
    ([0x3c], 3)).1 ([0x1c], 4)).1
  (remove testPof n ([0x3c], 0)).map (·.1)

/-- What TestPotRemove expects: the indexes `[2 4 0]` at proximity orders `[1 3 0]`, so the root is the removed
value `0` and the node `1` that was pinned there is gone. -/
example : (testRemovePot.map fun t => t.visit.1.map fun (v, po) => (v.map Prod.snd, po)) =
    some [(some 2, 1), (some 4, 3), (some 0, 0)] := by decide

end Etherzero.Swarm
