import Mathlib.Data.List.Chain
import Mathlib.Data.List.Nodup
import Mathlib.Logic.Function.Basic

/-!
# Doubly linked nodes

`Links α` are the two links of all nodes of type `α`, where `none` is a null pointer. A `Path` is a
sequence of nodes each of which is linked with the next one, forwards and backwards.

Operations on linked lists are made of `join a b`, which lets `b` follow `a`.
-/

namespace Lib

open Function List

variable {α : Type}

structure Links (α : Type) where
  prev : α → Option α
  next : α → Option α

namespace Links

variable {l l' : Links α} {a b : α} {xs : List α}

/-- `b` follows `a`. -/
def Joined (l : Links α) (a b : α) : Prop := l.next a = some b ∧ l.prev b = some a

def Path (l : Links α) (xs : List α) : Prop := xs.IsChain l.Joined

/-- The links of the nodes outside `S` are the same. -/
def SameOff (l l' : Links α) (S : α → Prop) : Prop :=
  ∀ x, ¬ S x → l'.next x = l.next x ∧ l'.prev x = l.prev x

theorem SameOff.refl (l : Links α) (S : α → Prop) : l.SameOff l S := fun _ _ => ⟨rfl, rfl⟩

theorem SameOff.trans {l'' : Links α} {S : α → Prop} (h : l.SameOff l' S) (h' : l'.SameOff l'' S) :
    l.SameOff l'' S := fun x hx =>
  ⟨(h' x hx).1.trans (h x hx).1, (h' x hx).2.trans (h x hx).2⟩

theorem SameOff.mono {S S' : α → Prop} (h : l.SameOff l' S) (hS : ∀ x, S x → S' x) :
    l.SameOff l' S' := fun x hx => h x fun hin => hx (hS x hin)

theorem Path.congr (h : l.Path xs) (hn : ∀ x ∈ xs.dropLast, l'.next x = l.next x)
    (hp : ∀ x ∈ xs.tail, l'.prev x = l.prev x) : l'.Path xs := by
  induction xs with
  | nil => exact isChain_nil
  | cons a xs ih =>
    cases xs with
    | nil => exact isChain_singleton a
    | cons b xs =>
      obtain ⟨hab, hrest⟩ := isChain_cons_cons.mp h
      refine isChain_cons_cons.mpr ⟨⟨?_, ?_⟩, ih hrest (fun x hx => ?_) fun x hx => ?_⟩
      · rw [hn a mem_cons_self]
        exact hab.1
      · rw [hp b mem_cons_self]
        exact hab.2
      · exact hn x (mem_cons_of_mem _ hx)
      · exact hp x (mem_cons_of_mem _ hx)

theorem Path.nodup (h : l.Path (a :: xs)) (ha : l.prev a = none) : (a :: xs).Nodup := by
  have hprev : ∀ j (hj : j + 1 < (a :: xs).length),
      l.prev ((a :: xs)[j + 1]) = some ((a :: xs)[j]) := fun j hj =>
    (isChain_iff_getElem.mp h j hj).2
  refine pairwise_iff_getElem.mpr fun i => ?_
  induction i with
  | zero =>
    intro j _ hj hij heq
    obtain ⟨j, rfl⟩ := Nat.exists_eq_succ_of_ne_zero (Nat.ne_of_gt hij)
    have hsome := hprev j hj
    rw [← heq, getElem_cons_zero, ha] at hsome
    cases hsome
  | succ i ih =>
    -- two equal nodes have the same predecessor
    intro j hi hj hij heq
    obtain ⟨j, rfl⟩ := Nat.exists_eq_succ_of_ne_zero (Nat.ne_of_gt (Nat.zero_lt_of_lt hij))
    have hsame := hprev i hi
    rw [heq, hprev j hj] at hsame
    exact ih j (by omega) (by omega) (by omega) (Option.some.inj hsame).symm

theorem Path.reverse (h : l.Path xs)
    (hx : ∀ x ∈ xs, l'.next x = l.prev x ∧ l'.prev x = l.next x) : l'.Path xs.reverse := by
  refine isChain_reverse.mpr ?_
  induction xs with
  | nil => exact isChain_nil
  | cons a xs ih =>
    cases xs with
    | nil => exact isChain_singleton a
    | cons b xs =>
      obtain ⟨hab, hrest⟩ := isChain_cons_cons.mp h
      refine isChain_cons_cons.mpr ⟨⟨?_, ?_⟩, ih hrest fun x hm => ?_⟩
      · rw [(hx b (by simp)).1]
        exact hab.2
      · rw [(hx a (by simp)).2]
        exact hab.1
      · exact hx x (mem_cons_of_mem _ hm)

/-! ## Changing links -/

section Change

variable [DecidableEq α]

def setPrev (l : Links α) (a : α) (p : Option α) : Links α :=
  { l with prev := update l.prev a p }

def setNext (l : Links α) (a : α) (n : Option α) : Links α :=
  { l with next := update l.next a n }

@[simp] theorem setPrev_next (l : Links α) (a : α) (p : Option α) :
    (l.setPrev a p).next = l.next := rfl

@[simp] theorem setNext_prev (l : Links α) (a : α) (n : Option α) :
    (l.setNext a n).prev = l.prev := rfl

@[simp] theorem setPrev_self (l : Links α) (a : α) (p : Option α) :
    (l.setPrev a p).prev a = p := update_self ..

@[simp] theorem setNext_self (l : Links α) (a : α) (n : Option α) :
    (l.setNext a n).next a = n := update_self ..

theorem setPrev_ne (l : Links α) {x : α} (p : Option α) (h : x ≠ a) :
    (l.setPrev a p).prev x = l.prev x := update_of_ne h ..

theorem setNext_ne (l : Links α) {x : α} (n : Option α) (h : x ≠ a) :
    (l.setNext a n).next x = l.next x := update_of_ne h ..

/-- `b` is to follow `a`. -/
def join (l : Links α) (a b : α) : Links α := (l.setNext a (some b)).setPrev b (some a)

theorem join_joined (l : Links α) (a b : α) : (l.join a b).Joined a b :=
  ⟨setNext_self .., setPrev_self ..⟩

theorem join_next_ne (l : Links α) {x : α} (h : x ≠ a) : (l.join a b).next x = l.next x :=
  setNext_ne _ _ h

theorem join_prev_ne (l : Links α) {x : α} (h : x ≠ b) : (l.join a b).prev x = l.prev x :=
  setPrev_ne _ _ h

theorem Joined.join {c d : α} (h : l.Joined c d) (hc : c ≠ a) (hd : d ≠ b) :
    (l.join a b).Joined c d := by
  refine ⟨?_, ?_⟩
  · rw [join_next_ne l hc]
    exact h.1
  · rw [join_prev_ne l hd]
    exact h.2

theorem join_sameOff (l : Links α) {S : α → Prop} (ha : S a) (hb : S b) :
    l.SameOff (l.join a b) S := by
  intro x hx
  refine ⟨join_next_ne l ?_, join_prev_ne l ?_⟩
  · rintro rfl
    exact hx ha
  · rintro rfl
    exact hx hb

theorem Path.join (h : l.Path xs) (ha : a ∉ xs.dropLast) (hb : b ∉ xs.tail) :
    (l.join a b).Path xs := by
  refine h.congr (fun x hx => join_next_ne l ?_) fun x hx => join_prev_ne l ?_
  · rintro rfl
    exact ha hx
  · rintro rfl
    exact hb hx

variable {A R B : List α} {p n f t : α}

theorem Path.join_off (h : l.Path xs) (ha : a ∉ xs) (hb : b ∉ xs) : (l.join a b).Path xs :=
  h.join (fun hm => ha (dropLast_subset _ hm)) fun hm => hb (mem_of_mem_tail hm)

theorem Path.join_last (h : l.Path (A ++ [p])) (hp : p ∉ A) (hb : b ∉ A ++ [p]) :
    (l.join p b).Path (A ++ [p]) := by
  refine h.join ?_ fun hm => hb (mem_of_mem_tail hm)
  rw [dropLast_concat]
  exact hp

theorem Path.join_first (h : l.Path (n :: B)) (ha : a ∉ n :: B) (hn : n ∉ B) :
    (l.join a n).Path (n :: B) :=
  h.join (fun hm => ha (dropLast_subset _ hm)) hn

theorem Path.cut (h : l.Path (A ++ p :: (R ++ n :: B))) (hnd : (A ++ p :: (R ++ n :: B)).Nodup) :
    (l.join p n).Path (A ++ p :: n :: B) ∧ (l.join p n).Path R := by
  obtain ⟨hleft, hright⟩ := isChain_split.mp h
  have hright : l.Path ([p] ++ (R ++ n :: B)) := hright
  obtain ⟨-, hmid, -⟩ := isChain_append.mp hright
  obtain ⟨hpart, hlast, -⟩ := isChain_append.mp hmid
  simp only [nodup_append, nodup_cons, mem_append, mem_cons] at hnd
  have hleft' : (l.join p n).Path (A ++ [p]) := Path.join_last hleft (by grind) (by grind)
  have hlast' : (l.join p n).Path (n :: B) := Path.join_first hlast (by grind) (by grind)
  refine ⟨isChain_append_cons_cons.mpr ⟨hleft', join_joined .., hlast'⟩, ?_⟩
  exact Path.join_off hpart (by grind) (by grind)

theorem Path.paste (h : l.Path (A ++ p :: n :: B)) (hR : l.Path R) (hf : R.head? = some f)
    (ht : R.getLast? = some t) (hnd : (A ++ p :: (R ++ n :: B)).Nodup) :
    ((l.join p f).join t n).Path (A ++ p :: (R ++ n :: B)) := by
  obtain ⟨hleft, -, hright⟩ := isChain_append_cons_cons.mp h
  obtain ⟨R₁, rfl⟩ := List.head?_eq_some_iff.mp hf
  obtain ⟨R₂, hR₂⟩ := List.getLast?_eq_some_iff.mp ht
  have hndR : (f :: R₁).Nodup := (nodup_append.mp (nodup_append.mp hnd).2.1.tail).1
  have hf₁ : f ∉ R₁ := (nodup_cons.mp hndR).1
  have ht₂ : t ∉ R₂ := by
    rw [hR₂] at hndR
    exact fun hm => (nodup_append.mp hndR).2.2 t hm t (by simp) rfl
  have htR : t ∈ f :: R₁ := by simp [hR₂]
  simp only [nodup_append, nodup_cons, mem_append, mem_cons] at hnd
  -- the three parts, then the two joins
  have hleft' : ((l.join p f).join t n).Path (A ++ [p]) :=
    (Path.join_last hleft (by grind) (by grind)).join_off (by grind) (by grind)
  have hpart : ((l.join p f).join t n).Path (f :: R₁) := by
    have hp : (l.join p f).Path (f :: R₁) := hR.join_first (by grind) hf₁
    rw [hR₂] at hp ⊢
    exact hp.join_last ht₂ (by grind)
  have hright' : ((l.join p f).join t n).Path (n :: B) :=
    (Path.join_off hright (by grind) (by grind)).join_first (by grind) (by grind)
  have hfirst : ((l.join p f).join t n).Joined p f :=
    (join_joined l p f).join (by grind) (by grind)
  refine isChain_append_cons_cons.mpr ⟨hleft', hfirst, ?_⟩
  refine isChain_append.mpr ⟨hpart, hright', fun x hx y hy => ?_⟩
  rw [ht] at hx
  cases hx
  cases hy
  exact join_joined ..

end Change

end Links

end Lib
