import Mathlib.Data.List.Infix
import Mathlib.Tactic.Common

/-!
# Where a pattern occurs in a text

The first and the last position of a pattern, over any alphabet, as scripts
compute them with indexOf and lastIndexOf. Each is characterised by the
occurrence at that position and by the positions without one.
-/

namespace VideooServer.TextSearch

variable {α : Type*}

/-- A pattern stands at a position of a text. -/
def OccursAt (pat s : List α) (i : ℕ) : Prop := i ≤ s.length ∧ pat <+: s.drop i

variable {pat s t : List α} {i j : ℕ}

/-- A pattern occurs at the front when it is a prefix. -/
theorem occursAt_zero : OccursAt pat s 0 ↔ pat <+: s := by simp [OccursAt]

/-- Behind the first character it occurs in the rest. -/
theorem occursAt_succ (c : α) : OccursAt pat (c :: s) (i + 1) ↔ OccursAt pat s i := by
  simp [OccursAt]

/-- The text around an occurrence. -/
theorem occursAt_iff : OccursAt pat s i ↔ ∃ a b, s = a ++ pat ++ b ∧ a.length = i := by
  constructor
  · rintro ⟨hi, b, hb⟩
    refine ⟨s.take i, b, ?_, List.length_take_of_le hi⟩
    rw [List.append_assoc, hb, List.take_append_drop]
  · rintro ⟨a, b, rfl, rfl⟩
    refine ⟨by simp, b, ?_⟩
    rw [List.append_assoc, List.drop_left]

/-- Some position has the pattern exactly when it is a part of the text. -/
theorem exists_occursAt : (∃ i, OccursAt pat s i) ↔ pat <:+: s := by
  constructor
  · rintro ⟨i, h⟩
    obtain ⟨a, b, rfl, -⟩ := occursAt_iff.mp h
    exact ⟨a, b, rfl⟩
  · rintro ⟨a, b, rfl⟩
    exact ⟨a.length, occursAt_iff.mpr ⟨a, b, rfl, rfl⟩⟩

variable [DecidableEq α]

instance (pat s : List α) (i : ℕ) : Decidable (OccursAt pat s i) :=
  inferInstanceAs (Decidable (_ ∧ _))

/-- The first position of a pattern. -/
def indexOf (pat : List α) : List α → Option ℕ
  | [] => if pat = [] then some 0 else none
  | c :: s => if pat <+: c :: s then some 0 else (indexOf pat s).map (· + 1)

/-- The last position of a pattern. -/
def lastIndexOf (pat : List α) : List α → Option ℕ
  | [] => if pat = [] then some 0 else none
  | c :: s =>
    match lastIndexOf pat s with
    | some i => some (i + 1)
    | none => if pat <+: c :: s then some 0 else none

/-- The pattern stands at its first position, and nowhere before it. -/
theorem indexOf_eq_some_iff :
    indexOf pat s = some i ↔ OccursAt pat s i ∧ ∀ j < i, ¬OccursAt pat s j := by
  induction s generalizing i with
  | nil =>
    by_cases hpat : pat = []
    · cases i <;> simp [indexOf, OccursAt, hpat]
    · simp [indexOf, OccursAt, hpat]
  | cons c s ih =>
    rw [indexOf]
    split_ifs with hpat
    · constructor
      · intro h
        obtain rfl := Option.some.inj h
        exact ⟨occursAt_zero.mpr hpat, fun j hj => absurd hj (Nat.not_lt_zero j)⟩
      · rintro ⟨-, hfirst⟩
        cases i with
        | zero => rfl
        | succ i => exact absurd (occursAt_zero.mpr hpat) (hfirst 0 (by omega))
    · cases i with
      | zero => simp [occursAt_zero, hpat]
      | succ i =>
        have hmap : (indexOf pat s).map (· + 1) = some (i + 1) ↔ indexOf pat s = some i := by
          simp
        rw [hmap, ih, occursAt_succ]
        refine and_congr_right fun _ => ⟨fun hfirst j hj => ?_, fun hfirst j hj => ?_⟩
        · cases j with
          | zero => rwa [occursAt_zero]
          | succ j =>
            rw [occursAt_succ]
            exact hfirst j (by omega)
        · have h := hfirst (j + 1) (by omega)
          rwa [occursAt_succ] at h

/-- There is no first position exactly when the pattern is no part of the
text. -/
theorem indexOf_eq_none_iff : indexOf pat s = none ↔ ¬pat <:+: s := by
  induction s with
  | nil => simp [indexOf]
  | cons c s ih =>
    rw [indexOf, List.infix_cons_iff, not_or]
    split_ifs with hpat
    · simp [hpat]
    · rw [Option.map_eq_none_iff, ih]
      exact (and_iff_right hpat).symm

/-- The search fails exactly when the pattern does not occur. -/
theorem lastIndexOf_eq_none_iff : lastIndexOf pat s = none ↔ ¬pat <:+: s := by
  induction s with
  | nil => simp [lastIndexOf]
  | cons c s ih =>
    rw [lastIndexOf, List.infix_cons_iff, not_or, ← ih]
    cases lastIndexOf pat s with
    | some i => simp
    | none => simp

/-- The pattern stands at its last position, and nowhere after it. -/
theorem lastIndexOf_eq_some_iff :
    lastIndexOf pat s = some i ↔ OccursAt pat s i ∧ ∀ j, i < j → ¬OccursAt pat s j := by
  induction s generalizing i with
  | nil =>
    by_cases hpat : pat = []
    · simp only [lastIndexOf, hpat, if_true, Option.some.injEq, OccursAt, List.length_nil,
        Nat.le_zero, List.nil_prefix, and_true]
      constructor
      · rintro rfl
        exact ⟨rfl, fun j hj => by omega⟩
      · exact fun h => h.1.symm
    · simp [lastIndexOf, OccursAt, hpat]
  | cons c s ih =>
    rw [lastIndexOf]
    cases hlast : lastIndexOf pat s with
    | some k =>
      obtain ⟨hk, hafter⟩ := ih.mp hlast
      dsimp only
      rw [Option.some_inj]
      constructor
      · rintro rfl
        refine ⟨(occursAt_succ c).mpr hk, fun j hj => ?_⟩
        cases j with
        | zero => omega
        | succ j =>
          rw [occursAt_succ]
          exact hafter j (by omega)
      · rintro ⟨hi, hnone⟩
        have hle : k + 1 ≤ i := by
          by_contra hlt
          exact hnone (k + 1) (by omega) ((occursAt_succ c).mpr hk)
        cases i with
        | zero => omega
        | succ i =>
          by_contra hne
          exact hafter i (by omega) ((occursAt_succ c).mp hi)
    | none =>
      have hnone : ∀ j, ¬OccursAt pat s j := by
        intro j hj
        exact lastIndexOf_eq_none_iff.mp hlast (exists_occursAt.mp ⟨j, hj⟩)
      cases i with
      | zero =>
        have hafter : ∀ j, 0 < j → ¬OccursAt pat (c :: s) j := by
          intro j hj
          cases j with
          | zero => omega
          | succ j =>
            rw [occursAt_succ]
            exact hnone j
        simp only [ite_eq_left_iff, reduceCtorEq, imp_false, not_not, occursAt_zero]
        exact ⟨fun hpat => ⟨hpat, hafter⟩, fun h => h.1⟩
      | succ i => simp [occursAt_succ, hnone i]

/-- A pattern that begins the text is found at its beginning. -/
theorem indexOf_eq_zero_iff : indexOf pat s = some 0 ↔ pat <+: s := by
  rw [indexOf_eq_some_iff, occursAt_zero]
  exact and_iff_left fun j hj => absurd hj (Nat.not_lt_zero j)

end VideooServer.TextSearch
