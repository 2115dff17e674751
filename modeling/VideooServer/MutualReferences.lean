import Mathlib.Logic.Function.Basic
import Mathlib.Tactic.Common

/-!
# Owners and objects that refer to each other

An owner holds at most one object of each kind, and an object refers back
to its owner. The references match when each of them has its counterpart.
Creating an object in an empty place and dropping all objects of an owner
keep them matched.
-/

namespace VideooServer.MutualReferences

variable {ι τ κ : Type*}

/-- The references of owners to objects and back. -/
@[ext] structure References (ι τ κ : Type*) where
  /-- The object of a kind that an owner holds. -/
  holds : τ → κ → Option ι
  /-- The owner that an object refers to, and the object's kind. -/
  owner : ι → Option (τ × κ)

/-- Every reference has its counterpart. -/
def References.Matched (r : References ι τ κ) : Prop :=
  ∀ i t k, r.owner i = some (t, k) ↔ r.holds t k = some i

variable {r : References ι τ κ} {i j : ι} {t u : τ} {k l : κ}

/-- An object has one owner and one kind. -/
theorem References.Matched.unique (h : r.Matched) (ht : r.holds t k = some i)
    (hu : r.holds u l = some i) : t = u ∧ k = l := by
  have heq := ((h i t k).mpr ht).symm.trans ((h i u l).mpr hu)
  exact Prod.mk.inj (Option.some.inj heq)

/-- Objects of different owners are different. -/
theorem References.Matched.ne (h : r.Matched) (ht : r.holds t k = some i)
    (hu : r.holds u l = some j) (hne : t ≠ u ∨ k ≠ l) : i ≠ j := by
  rintro rfl
  obtain ⟨htu, hkl⟩ := h.unique ht hu
  exact hne.elim (fun hn => hn htu) fun hn => hn hkl

variable [DecidableEq ι] [DecidableEq τ] [DecidableEq κ]

/-- Give an owner a new object. -/
def References.link (r : References ι τ κ) (i : ι) (t : τ) (k : κ) : References ι τ κ where
  holds := Function.update r.holds t (Function.update (r.holds t) k (some i))
  owner := Function.update r.owner i (some (t, k))

omit [DecidableEq ι] [DecidableEq κ] in
/-- Drop all objects of an owner. -/
def References.clear (r : References ι τ κ) (t : τ) : References ι τ κ where
  holds := Function.update r.holds t fun _ => none
  owner i := if (r.owner i).map Prod.fst = some t then none else r.owner i

omit [DecidableEq ι] [DecidableEq κ] in
/-- The objects of the owner refer to nothing. -/
theorem References.clear_owner_self (h : (r.owner i).map Prod.fst = some t) :
    (r.clear t).owner i = none := if_pos h

omit [DecidableEq ι] [DecidableEq κ] in
/-- The objects of other owners keep their references. -/
theorem References.clear_owner_ne (h : (r.owner i).map Prod.fst ≠ some t) :
    (r.clear t).owner i = r.owner i := if_neg h

/-- A new object in an empty place keeps the references matched. -/
theorem References.Matched.link (h : r.Matched) (hnew : r.owner i = none)
    (hempty : r.holds t k = none) : (r.link i t k).Matched := by
  intro j u l
  by_cases hj : j = i
  · subst hj
    by_cases htu : u = t
    · subst htu
      by_cases hkl : l = k
      · simp [References.link, hkl]
      · have hother : r.holds u l ≠ some j := by
          intro he
          rw [(h j u l).mpr he] at hnew
          cases hnew
        simp [References.link, hkl, hother, Ne.symm hkl]
    · have hother : r.holds u l ≠ some j := by
        intro he
        rw [(h j u l).mpr he] at hnew
        cases hnew
      simp [References.link, htu, hother, Ne.symm htu]
  · by_cases htu : u = t
    · subst htu
      by_cases hkl : l = k
      · subst hkl
        have hother : r.owner j ≠ some (u, l) := by
          intro he
          rw [(h j u l).mp he] at hempty
          cases hempty
        simp [References.link, hj, hother, Ne.symm hj]
      · simp [References.link, hj, hkl, h j u l]
    · simp [References.link, hj, htu, h j u l]

omit [DecidableEq ι] [DecidableEq κ] in
/-- Dropping the objects of an owner keeps the references matched. -/
theorem References.Matched.clear (h : r.Matched) (t : τ) : (r.clear t).Matched := by
  intro j u l
  by_cases htu : u = t
  · subst htu
    by_cases ho : (r.owner j).map Prod.fst = some u
    · simp [References.clear, ho]
    · have hother : r.owner j ≠ some (u, l) := by
        intro he
        simp [he] at ho
      simp [References.clear, ho, hother]
  · rw [References.clear]
    dsimp only
    rw [Function.update_of_ne htu, ← h j u l]
    by_cases ho : (r.owner j).map Prod.fst = some t
    · have hother : r.owner j ≠ some (u, l) := by
        intro he
        simp only [he, Option.map_some, Option.some.injEq] at ho
        exact htu ho
      simp [ho, hother]
    · rw [if_neg ho]

end VideooServer.MutualReferences
