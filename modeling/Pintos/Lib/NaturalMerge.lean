import Mathlib.Data.List.Basic
import Mathlib.Data.List.Chain
import Mathlib.Order.Defs.Unbundled

/-!
# Natural merge sort

A run is a part of a list that is in order. A pass takes the runs of a list in pairs and merges them,
and leaves an odd run at the end as it is.
-/

namespace Lib

open List

variable {α : Type}

/-- `a` may stand before `b`. -/
def notAfter (less : α → α → Bool) (a b : α) : Bool := !less b a

/-- Neither is less than the other. -/
def equivalent (less : α → α → Bool) (a b : α) : Bool := !less a b && !less b a

/-- In order. -/
abbrev InOrder (less : α → α → Bool) (xs : List α) : Prop :=
  xs.Pairwise fun a b => notAfter less a b = true

/-- The rest of the run that starts at `x`, and what is behind it. -/
def splitRun (less : α → α → Bool) (x : α) : List α → List α × List α
  | [] => ([], [])
  | y :: ys =>
    if less y x then ([], y :: ys)
    else (y :: (splitRun less y ys).1, (splitRun less y ys).2)

/-- One pass over the list. -/
inductive Pass (less : α → α → Bool) : List α → List α → Nat → Prop
  | nil : Pass less [] [] 0
  | odd {x xs} : (splitRun less x xs).2 = [] → Pass less (x :: xs) (x :: xs) 1
  | merge {x y xs s out n} : (splitRun less x xs).2 = y :: s →
      Pass less (splitRun less y s).2 out n →
      Pass less (x :: xs)
        ((x :: (splitRun less x xs).1).merge (y :: (splitRun less y s).1) (notAfter less) ++ out)
        (n + 1)

/-- The list consists of at most `n` runs. -/
inductive RunsOf (less : α → α → Bool) : Nat → List α → Prop
  | nil (n : Nat) : RunsOf less n []
  | append {n b xs} : InOrder less b → RunsOf less n xs → RunsOf less (n + 1) (b ++ xs)

/-! ## Runs -/

variable {less : α → α → Bool} {x y : α} {xs ys : List α} {n : Nat}

theorem splitRun_append (less : α → α → Bool) (x : α) (ys : List α) :
    (splitRun less x ys).1 ++ (splitRun less x ys).2 = ys := by
  induction ys generalizing x with
  | nil => rfl
  | cons y ys ih =>
    unfold splitRun
    split
    · rfl
    · exact congrArg (y :: ·) (ih y)

theorem splitRun_suffix (less : α → α → Bool) (x : α) (ys : List α) :
    (splitRun less x ys).2 <:+ ys := ⟨_, splitRun_append less x ys⟩

theorem splitRun_length (less : α → α → Bool) (x : α) (ys : List α) :
    (splitRun less x ys).2.length ≤ ys.length := (splitRun_suffix less x ys).length_le

theorem RunsOf.tail (h : RunsOf less n (x :: xs)) : RunsOf less n xs := by
  generalize hl : x :: xs = l at h
  induction h with
  | nil => cases hl
  | @append n b ys hb hys ih =>
    cases b with
    | nil => exact .append hb (ih hl)
    | cons z b =>
      cases hl
      exact .append hb.tail hys

theorem RunsOf.suffix (h : RunsOf less n xs) (hs : ys <:+ xs) : RunsOf less n ys := by
  obtain ⟨zs, rfl⟩ := hs
  induction zs with
  | nil => exact h
  | cons z zs ih => exact ih h.tail

theorem RunsOf.splitRun_of_append {b : List α} (hb : InOrder less (x :: b)) (h : RunsOf less n ys) :
    RunsOf less n (splitRun less x (b ++ ys)).2 := by
  induction b generalizing x with
  | nil => exact h.suffix (splitRun_suffix less x ys)
  | cons y b ih =>
    have hxy : less y x = false := by
      have hle := (pairwise_cons.mp hb).1 y mem_cons_self
      simpa [notAfter] using hle
    rw [cons_append, splitRun, hxy]
    exact ih hb.tail

theorem RunsOf.splitRun (h : RunsOf less (n + 1) (x :: xs)) :
    RunsOf less n (splitRun less x xs).2 := by
  generalize hl : x :: xs = l at h
  cases h with
  | nil => cases hl
  | @append _ b ys hb hys =>
    cases b with
    | nil =>
      rw [nil_append] at hl
      rw [← hl] at hys
      exact hys.tail.suffix (splitRun_suffix less x xs)
    | cons z b =>
      cases hl
      exact hys.splitRun_of_append hb

theorem RunsOf.pos (h : RunsOf less n (x :: xs)) : 0 < n := by
  generalize hl : x :: xs = l at h
  cases h with
  | nil => cases hl
  | append => exact Nat.succ_pos _

theorem RunsOf.length (less : α → α → Bool) (xs : List α) : RunsOf less xs.length xs := by
  induction xs with
  | nil => exact .nil _
  | cons x xs ih => exact .append (b := [x]) (pairwise_singleton ..) ih

theorem RunsOf.inOrder (h : RunsOf less n xs) (hn : n ≤ 1) : InOrder less xs := by
  cases h with
  | nil => exact .nil
  | @append n b ys hb hys =>
    have hzero : n = 0 := by omega
    subst hzero
    cases hys
    rw [append_nil]
    exact hb

theorem Pass.halves (h : Pass less xs ys n) : ∀ {m}, RunsOf less m xs → 2 * n ≤ m + 1 := by
  induction h with
  | nil => exact fun _ => Nat.zero_le _
  | odd => exact fun hr => by have := hr.pos; omega
  | @merge x y xs s out n hsplit hpass ih =>
    intro m hr
    obtain ⟨m, rfl⟩ := Nat.exists_eq_succ_of_ne_zero (Nat.ne_of_gt hr.pos)
    have hr₁ := hr.splitRun
    rw [hsplit] at hr₁
    obtain ⟨m, rfl⟩ := Nat.exists_eq_succ_of_ne_zero (Nat.ne_of_gt hr₁.pos)
    have := ih hr₁.splitRun
    omega

theorem splitRun_twice {s : List α} (hsplit : (splitRun less x xs).2 = y :: s) :
    x :: xs = (x :: (splitRun less x xs).1) ++ (y :: (splitRun less y s).1) ++
      (splitRun less y s).2 := by
  have h₁ := splitRun_append less x xs
  have h₂ := splitRun_append less y s
  rw [hsplit] at h₁
  conv_lhs => rw [← h₁, ← h₂]
  simp

theorem Pass.perm (h : Pass less xs ys n) : ys.Perm xs := by
  induction h with
  | nil => exact .refl _
  | odd => exact .refl _
  | merge hsplit hpass ih =>
    rw [splitRun_twice hsplit]
    exact (merge_perm_append _).append ih

/-! ## Strict weak orders -/

section Order

variable [IsStrictWeakOrder α fun a b => less a b = true]

theorem notAfter_trans {a b c : α} (hab : notAfter less a b = true) (hbc : notAfter less b c = true) :
    notAfter less a c = true := by
  simp only [notAfter, Bool.not_eq_true', ← Bool.not_eq_true] at hab hbc ⊢
  intro hca
  have htrans : ∀ {u v w}, less u v = true → less v w = true → less u w = true := fun {u v w} =>
    IsTrans.trans (r := fun a b => less a b = true) u v w
  -- `b` is equivalent to both, or it is less or greater than one of them
  have hab' : ¬ less a b = true := fun h => hbc (htrans hca h)
  have hbc' : ¬ less b c = true := fun h => hab (htrans h hca)
  have hincomp := @IsStrictWeakOrder.incomp_trans α (fun a b => less a b = true) _ a b c
    ⟨hab', hab⟩ ⟨hbc', hbc⟩
  exact hincomp.2 hca

theorem notAfter_total (a b : α) : (notAfter less a b || notAfter less b a) = true := by
  simp only [notAfter, Bool.or_eq_true, Bool.not_eq_true', ← Bool.not_eq_true]
  by_contra hcon
  rw [not_or, not_not, not_not] at hcon
  have htrans := IsTrans.trans (r := fun a b => less a b = true) a b a hcon.2 hcon.1
  exact Std.Irrefl.irrefl (r := fun a b => less a b = true) a htrans

theorem splitRun_inOrder (x : α) (ys : List α) : InOrder less (x :: (splitRun less x ys).1) := by
  have hchain : (x :: (splitRun less x ys).1).IsChain fun a b => notAfter less a b = true := by
    induction ys generalizing x with
    | nil => exact isChain_singleton x
    | cons y ys ih =>
      unfold splitRun
      split
      · exact isChain_singleton x
      · next hxy =>
        refine isChain_cons_cons.mpr ⟨?_, ih y⟩
        simpa [notAfter] using hxy
  have : Trans (fun a b => notAfter less a b = true) (fun a b => notAfter less a b = true)
      (fun a b : α => notAfter less a b = true) := ⟨notAfter_trans⟩
  exact hchain.pairwise

theorem merge_inOrder {a b : List α} (ha : InOrder less a) (hb : InOrder less b) :
    InOrder less (a.merge b (notAfter less)) :=
  pairwise_merge (fun _ _ _ => notAfter_trans) notAfter_total a b ha hb

theorem filter_merge (z : α) {a b : List α} (ha : InOrder less a) :
    (a.merge b (notAfter less)).filter (equivalent less z) =
      a.filter (equivalent less z) ++ b.filter (equivalent less z) := by
  induction a generalizing b with
  | nil => simp
  | cons x a iha =>
    induction b with
    | nil => simp
    | cons y b ihb =>
      rw [cons_merge_cons]
      split
      · rw [filter_cons, filter_cons (x := x), iha ha.tail]
        split <;> rfl
      · next hyx =>
        rw [filter_cons, ihb, filter_cons (x := y)]
        split
        · next hzy =>
          -- everything in `x :: a` is greater than `y`, so none of it is equivalent to `z`
          have hnone : (x :: a).filter (equivalent less z) = [] := by
            rw [filter_eq_nil_iff]
            intro w hw hzw
            have hxw : notAfter less x w = true := by
              rcases mem_cons.mp hw with rfl | hw
              · have htotal : (notAfter less w w || notAfter less w w) = true :=
                  notAfter_total w w
                simpa using htotal
              · exact (pairwise_cons.mp ha).1 w hw
            simp only [equivalent, Bool.and_eq_true] at hzy hzw
            have hwy : notAfter less w y = true :=
              notAfter_trans (b := z) hzw.1 hzy.2
            exact hyx (notAfter_trans hxw hwy)
          rw [hnone]
          rfl
        · rfl

theorem Pass.runs (h : Pass less xs ys n) : RunsOf less n ys := by
  induction h with
  | nil => exact .nil 0
  | @odd x xs hsplit =>
    have hall := splitRun_append less x xs
    rw [hsplit, append_nil] at hall
    have horder : InOrder less (x :: (splitRun less x xs).1) := splitRun_inOrder x xs
    rw [hall] at horder
    have hrun := RunsOf.append horder (.nil 0)
    rwa [append_nil] at hrun
  | merge hsplit hpass ih =>
    exact .append (merge_inOrder (splitRun_inOrder ..) (splitRun_inOrder ..)) ih

theorem Pass.stable (h : Pass less xs ys n) (z : α) :
    ys.filter (equivalent less z) = xs.filter (equivalent less z) := by
  induction h with
  | nil => rfl
  | odd => rfl
  | merge hsplit hpass ih =>
    rw [splitRun_twice hsplit, filter_append, filter_merge z (splitRun_inOrder ..), ih,
      filter_append, filter_append]

end Order

end Lib
