import Mathlib.Data.List.DropRight
import Mathlib.Tactic.Common

/-!
# Walks through a tree of names

A relative path is a walk, one move for every segment. Where it leads is a
number of levels up from its beginning and names down from there. A walk
from some place leads to what its own place looks like from there, so a
walk ends directly below a place exactly when it goes down by one name, or
up some levels and back down by the names it has left.
-/

namespace VideooServer.LexicalWalk

variable {α : Type*}

/-- What one segment of a path does. -/
inductive Move (α : Type*) where
  /-- Stay in place. -/
  | stay
  /-- Go up one level. -/
  | up
  /-- Go down to a name. -/
  | down (name : α)
  deriving DecidableEq

/-- A place as it is seen from the beginning of a walk. No level up follows
a name. -/
structure Place (α : Type*) where
  /-- Levels above the beginning. -/
  ups : ℕ
  /-- Names from there down. -/
  names : List α
  deriving DecidableEq

/-- The beginning of a walk. -/
def Place.start : Place α := ⟨0, []⟩

/-- The place after one more move. -/
def Place.move (p : Place α) : Move α → Place α
  | .stay => p
  | .up => if p.names.isEmpty then ⟨p.ups + 1, []⟩ else ⟨p.ups, p.names.dropLast⟩
  | .down name => ⟨p.ups, p.names ++ [name]⟩

/-- The place at the end of a walk. -/
def Place.walk (p : Place α) (moves : List (Move α)) : Place α := moves.foldl Place.move p

/-- A place that is seen from another one. The levels up take names away
first. -/
def Place.join (p q : Place α) : Place α :=
  ⟨p.ups + (q.ups - p.names.length), p.names.rdrop q.ups ++ q.names⟩

theorem Place.join_start (p : Place α) : p.join .start = p := by
  simp [Place.join, Place.start]

/-- Names are left exactly when the levels up are fewer. -/
theorem rdrop_eq_nil_iff {names : List α} {k : ℕ} : names.rdrop k = [] ↔ names.length ≤ k := by
  rw [List.rdrop_eq_reverse_drop_reverse, List.reverse_eq_nil_iff, List.drop_eq_nil_iff,
    List.length_reverse]

/-- Dropping names from the end one by one. -/
theorem dropLast_rdrop (names : List α) (k : ℕ) :
    (names.rdrop k).dropLast = names.rdrop (k + 1) := by
  rw [List.rdrop, List.rdrop, List.dropLast_eq_take, List.take_take, List.length_take]
  congr 1
  omega

/-- Going up from a joined place takes one more name away. -/
theorem Place.join_up (p q : Place α) : p.join (q.move .up) = (p.join q).move .up := by
  by_cases hq : q.names = []
  · have hmove : q.move .up = ⟨q.ups + 1, []⟩ := by simp [Place.move, hq]
    have hjoin : p.join q = ⟨p.ups + (q.ups - p.names.length), p.names.rdrop q.ups⟩ := by
      simp [Place.join, hq]
    rw [hmove, hjoin, Place.move, Place.join, List.append_nil]
    by_cases hlen : p.names.length ≤ q.ups
    · have hnil : p.names.rdrop (q.ups + 1) = [] := rdrop_eq_nil_iff.mpr (by omega)
      rw [if_pos (by simp [rdrop_eq_nil_iff.mpr hlen]), hnil, Nat.succ_sub hlen]
      rfl
    · have hups : q.ups + 1 - p.names.length = q.ups - p.names.length := by omega
      rw [if_neg (by simpa [rdrop_eq_nil_iff] using hlen), dropLast_rdrop, hups]
  · have hmove : q.move .up = ⟨q.ups, q.names.dropLast⟩ := by simp [Place.move, hq]
    rw [hmove, Place.move, Place.join, Place.join, if_neg (by simp [hq]),
      List.dropLast_append_of_ne_nil hq]

/-- A move from a joined place is the move of the second walk. -/
theorem Place.join_move (p q : Place α) (m : Move α) : p.join (q.move m) = (p.join q).move m := by
  cases m with
  | stay => rfl
  | up => exact p.join_up q
  | down name => simp [Place.move, Place.join]

/-- A walk leads to the place that it would lead to from the start, seen
from where it begins. -/
theorem Place.walk_eq_join (p : Place α) (moves : List (Move α)) :
    p.walk moves = p.join (Place.start.walk moves) := by
  have hfold : (p.join .start).walk moves = p.join (Place.start.walk moves) :=
    List.foldl_hom p.join fun q m => (p.join_move q m).symm
  rwa [p.join_start] at hfold

/-- A walk from a place below the start ends directly below it exactly when
it goes up some levels, down again by the names of these levels and by one
more name. -/
theorem Place.join_eq_child_iff {dir : List α} {name : α} {q : Place α} :
    (⟨0, dir⟩ : Place α).join q = ⟨0, dir ++ [name]⟩ ↔
      q.ups ≤ dir.length ∧ q.names = dir.rtake q.ups ++ [name] := by
  have hups : 0 + (q.ups - dir.length) = 0 ↔ q.ups ≤ dir.length := by omega
  have hdir : dir ++ [name] = dir.rdrop q.ups ++ (dir.rtake q.ups ++ [name]) := by
    rw [← List.append_assoc, List.rdrop, List.rtake, List.take_append_drop]
  rw [Place.join, Place.mk.injEq, hups, hdir, List.append_right_inj]

section Segments

variable {β : Type*} {up : β} {text : α → β} {p q : Place α}

/-- The segments of a place, with a segment for every level up and one for
every name. -/
def Place.segments (up : β) (text : α → β) (p : Place α) : List β :=
  List.replicate p.ups up ++ p.names.map text

/-- A step down is one segment more. -/
theorem Place.segments_down (name : α) :
    (p.move (.down name)).segments up text = p.segments up text ++ [text name] := by
  simp [Place.segments, Place.move]

/-- Going up takes the last name away, or adds a level where there is none. -/
theorem Place.segments_up :
    (p.move .up).segments up text =
      if p.names = [] then p.segments up text ++ [up] else (p.segments up text).dropLast := by
  split_ifs with hnames
  · simp [Place.segments, Place.move, hnames, List.replicate_succ']
  · have hmap : p.names.map text ≠ [] := by simp [hnames]
    simp [Place.segments, Place.move, hnames, List.dropLast_append_of_ne_nil hmap,
      List.map_dropLast]

/-- The last segment shows whether there is a name to take away. -/
theorem Place.names_eq_nil_iff (htext : ∀ name, text name ≠ up) :
    p.names = [] ↔ p.segments up text = [] ∨ (p.segments up text).getLast? = some up := by
  constructor
  · intro hnames
    cases hups : p.ups with
    | zero => simp [Place.segments, hnames, hups]
    | succ k => simp [Place.segments, hnames, hups, List.replicate_succ']
  · rintro (h | h)
    · simpa [Place.segments] using (List.append_eq_nil_iff.mp h).2
    · rcases List.eq_nil_or_concat' p.names with hnames | ⟨names, name, hnames⟩
      · exact hnames
      · have hlast : (p.segments up text).getLast? = some (text name) := by
          simp [Place.segments, hnames]
        exact absurd (Option.some.inj (hlast.symm.trans h)) (htext name)

/-- Different places have different segments. -/
theorem Place.segments_injective (hup : ∀ name, text name ≠ up)
    (htext : Function.Injective text) : Function.Injective (Place.segments up text) := by
  intro ⟨k, names⟩ ⟨l, others⟩ h
  simp only [Place.segments] at h
  induction k generalizing l with
  | zero =>
    cases l with
    | zero => rw [List.map_injective_iff.mpr htext h]
    | succ l =>
      cases names with
      | nil => simp [List.replicate_succ] at h
      | cons name names =>
        simp only [List.replicate_succ, List.map_cons, List.cons_append, List.nil_append,
          List.replicate_zero, List.cons.injEq] at h
        exact absurd h.1 (hup name)
  | succ k ih =>
    cases l with
    | zero =>
      cases others with
      | nil => simp [List.replicate_succ] at h
      | cons name names =>
        simp only [List.replicate_succ, List.map_cons, List.cons_append, List.nil_append,
          List.replicate_zero, List.cons.injEq] at h
        exact absurd h.1.symm (hup name)
    | succ l =>
      simp only [List.replicate_succ, List.cons_append, List.cons.injEq, true_and] at h
      have hrest := ih l h
      rw [Place.mk.injEq] at hrest ⊢
      exact ⟨congrArg Nat.succ hrest.1, hrest.2⟩

end Segments

end VideooServer.LexicalWalk
