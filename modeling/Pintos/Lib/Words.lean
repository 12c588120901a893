import Mathlib.Algebra.Order.BigOperators.Group.List
import Mathlib.Algebra.BigOperators.Group.List.Basic
import Mathlib.Algebra.GroupWithZero.Nat
import Mathlib.Algebra.Order.Group.Nat
import Mathlib.Data.List.TakeWhile

/-!
# The words of a list

`words p s` are the maximal runs of `s` without an element of `p`, in order. A tokenizer meets them
one at a time: `words_cons_sep` skips a separator, `words_run` and `words_run_sep` take the next
word, and `words_nextWord` says that it finds them all. `room_words`: the words with one place
behind each of them take no more room than `s` with one.
-/

namespace Lib

open List

variable {α : Type} {p : α → Bool}

/-- The maximal runs without a separator. -/
def words (p : α → Bool) (s : List α) : List (List α) := (s.splitOnP p).filter fun w => !w.isEmpty

/-- The room for lists with one more element behind each of them. -/
def room (ws : List (List α)) : Nat := (ws.map fun w => w.length + 1).sum

@[simp] theorem words_nil : words p [] = [] := by
  rw [words, splitOnP_nil]
  rfl

theorem words_cons_sep {x : α} (hx : p x = true) (s : List α) : words p (x :: s) = words p s := by
  rw [words, splitOnP_cons_eq_if_modifyHead, if_pos hx]
  rfl

theorem words_run {w : List α} (hw : w ≠ []) (hp : ∀ x ∈ w, p x = false) : words p w = [w] := by
  rw [words, splitOnP_eq_singleton hp, filter_cons_of_pos, filter_nil]
  cases w with
  | nil => exact absurd rfl hw
  | cons x w => rfl

theorem words_run_sep {w : List α} (hw : w ≠ []) (hp : ∀ x ∈ w, p x = false) {x : α}
    (hx : p x = true) (s : List α) : words p (w ++ x :: s) = w :: words p s := by
  have hsplit : words p (w ++ x :: s) = words p w ++ words p s := by
    simp only [words, splitOnP_append_cons w s hx, filter_append]
  rw [hsplit, words_run hw hp]
  rfl

/-- The next word of `s`, and what stands behind it. -/
def nextWord (p : α → Bool) (s : List α) : Option (List α × List α) :=
  match s.dropWhile p with
  | [] => none
  | x :: t => some ((x :: t).takeWhile (!p ·), (x :: t).dropWhile (!p ·))

theorem dropWhile_head {s t : List α} {x : α} (h : s.dropWhile p = x :: t) : p x = false := by
  have hhead := head_dropWhile_not p (l := s) (by simp [h])
  simpa [h] using hhead

theorem nextWord_none {s : List α} (h : nextWord p s = none) : s.dropWhile p = [] := by
  unfold nextWord at h
  split at h
  · next hdrop => exact hdrop
  · cases h

theorem nextWord_some {s w r : List α} (h : nextWord p s = some (w, r)) :
    s.dropWhile p = w ++ r ∧ w ≠ [] ∧ (∀ x ∈ w, p x = false) ∧
      (r = [] ∨ ∃ x t, r = x :: t ∧ p x = true) := by
  unfold nextWord at h
  split at h
  · cases h
  · next x t hdrop =>
    cases h
    have hx := dropWhile_head hdrop
    refine ⟨?_, by simp [hx], fun y hy => by simpa using mem_takeWhile_imp hy, ?_⟩
    · rw [takeWhile_append_dropWhile, hdrop]
    · cases hr : (x :: t).dropWhile (!p ·) with
      | nil => exact .inl rfl
      | cons y r => exact .inr ⟨y, r, rfl, by simpa using dropWhile_head hr⟩

theorem words_dropWhile (s : List α) : words p (s.dropWhile p) = words p s := by
  induction s with
  | nil => rfl
  | cons x s ih =>
    rw [dropWhile_cons]
    split
    · next hx => rw [ih, words_cons_sep hx]
    · rfl

theorem words_nextWord (s : List α) : words p s = match nextWord p s with
    | none => []
    | some (w, r) => w :: words p r.tail := by
  cases hnext : nextWord p s with
  | none => rw [← words_dropWhile, nextWord_none hnext, words_nil]
  | some next =>
    obtain ⟨w, r⟩ := next
    obtain ⟨hdrop, hne, hfree, hend⟩ := nextWord_some hnext
    rw [← words_dropWhile, hdrop]
    rcases hend with rfl | ⟨x, t, rfl, hx⟩
    · rw [append_nil, words_run hne hfree]
      exact congrArg (w :: ·) words_nil.symm
    · exact words_run_sep hne hfree hx t

theorem mem_splitOnP {s w : List α} (h : w ∈ s.splitOnP p) : ∀ x ∈ w, x ∈ s := by
  induction s generalizing w with
  | nil =>
    rw [splitOnP_nil, mem_singleton] at h
    subst h
    nofun
  | cons y s ih =>
    intro x hx
    rw [splitOnP_cons_eq_if_modifyHead] at h
    split at h
    · rcases mem_cons.mp h with rfl | h
      · cases hx
      · exact mem_cons_of_mem _ (ih h x hx)
    · cases hs : s.splitOnP p with
      | nil => exact absurd hs (splitOnP_ne_nil p s)
      | cons v vs =>
        rw [hs, modifyHead_cons] at h
        rw [hs] at ih
        rcases mem_cons.mp h with rfl | h
        · rcases mem_cons.mp hx with rfl | hx
          · exact mem_cons_self
          · exact mem_cons_of_mem _ (ih mem_cons_self x hx)
        · exact mem_cons_of_mem _ (ih (mem_cons_of_mem _ h) x hx)

theorem mem_words {s w : List α} (h : w ∈ words p s) : w ≠ [] ∧ ∀ x ∈ w, x ∈ s := by
  obtain ⟨hmem, hne⟩ := mem_filter.mp h
  refine ⟨?_, mem_splitOnP hmem⟩
  rintro rfl
  cases hne

theorem room_splitOnP (s : List α) : room (s.splitOnP p) = s.length + 1 := by
  unfold room
  induction s with
  | nil =>
    rw [splitOnP_nil]
    rfl
  | cons x s ih =>
    rw [splitOnP_cons_eq_if_modifyHead, length_cons]
    split
    · rw [map_cons, sum_cons, ih, length_nil]
      omega
    · cases hs : s.splitOnP p with
      | nil => exact absurd hs (splitOnP_ne_nil p s)
      | cons v vs =>
        rw [hs, map_cons, sum_cons] at ih
        rw [modifyHead_cons, map_cons, sum_cons, length_cons]
        omega

theorem room_words (s : List α) : room (words p s) ≤ s.length + 1 := by
  rw [← room_splitOnP (p := p) s]
  exact (filter_sublist.map _).sum_le_sum fun _ _ => Nat.zero_le _

@[simp] theorem room_nil : room ([] : List (List α)) = 0 := rfl

@[simp] theorem room_cons (w : List α) (ws : List (List α)) :
    room (w :: ws) = w.length + 1 + room ws := sum_cons

@[simp] theorem room_reverse (ws : List (List α)) : room ws.reverse = room ws := by
  unfold room
  rw [map_reverse, sum_reverse]

theorem two_mul_length_le_room {ws : List (List α)} (h : ∀ w ∈ ws, w ≠ []) :
    2 * ws.length ≤ room ws := by
  induction ws with
  | nil => exact Nat.le_refl 0
  | cons w ws ih =>
    have hw := length_pos_iff.mpr (h w mem_cons_self)
    have hws := ih fun v hv => h v (mem_cons_of_mem _ hv)
    rw [room_cons, length_cons]
    omega

end Lib
