import Mathlib.Data.Fintype.Card
import Mathlib.Data.Fintype.Fin
import Mathlib.Data.List.FinRange

/-!
# Majorities

More than half of a finite set of voters. Two majorities of the same voters share a voter.
-/

namespace DistributedCloud

variable {P : Type} [Fintype P]

/-- More than half of all the voters. -/
def Majority (S : Finset P) : Prop := Fintype.card P / 2 < S.card

theorem Majority.mono {S S' : Finset P} (majority : Majority S) (subset : S ⊆ S') : Majority S' :=
  lt_of_lt_of_le majority (Finset.card_le_card subset)

theorem Majority.inter [DecidableEq P] {S S' : Finset P} (first : Majority S)
    (second : Majority S') : ∃ p, p ∈ S ∧ p ∈ S' := by
  have crowded : (Finset.univ : Finset P).card < S.card + S'.card := by
    unfold Majority at first second
    rw [Finset.card_univ]
    omega
  obtain ⟨p, both⟩ := Finset.inter_nonempty_of_card_lt_card_add_card
    (Finset.subset_univ S) (Finset.subset_univ S') crowded
  exact ⟨p, Finset.mem_inter.mp both⟩

/-- Counting over the list of all indices counts the set of those that qualify. -/
theorem countP_finRange {n : Nat} (p : Fin n → Prop) [DecidablePred p] :
    (List.finRange n).countP (fun i => p i) = (Finset.univ.filter p).card := by
  rw [List.countP_eq_length_filter, Fin.univ_def]
  rfl

end DistributedCloud
