import Pintos.Lib.Links

/-!
# Linked lists (`lib/kernel/list.c`)

A `struct list_elem` is its address, of a type `α`, and `Links α` are the links of all of them. A list
has two header elements, the head and the tail, so that the functions on elements do not ask which list
an element is in. A failed assertion, or a null pointer that is followed, is `none`.
-/

namespace Pintos

open Lib List Option Links
open Function (update_self update_of_ne update_comm update_idem update_eq_self_iff)

variable {α ι : Type}

/-- `struct list`. -/
structure KernelList (α : Type) where
  head : α
  tail : α

open KernelList

/-! ## The functions -/

section Functions

variable [DecidableEq α]

def isHead (l : Links α) (e : α) : Bool := (l.prev e).isNone && (l.next e).isSome

def isInterior (l : Links α) (e : α) : Bool := (l.prev e).isSome && (l.next e).isSome

def isTail (l : Links α) (e : α) : Bool := (l.prev e).isSome && (l.next e).isNone

/-- `list_init`. -/
def listInit (l : Links α) (list : KernelList α) : Links α :=
  (((l.setPrev list.head none).setNext list.head (some list.tail)).setPrev list.tail
    (some list.head)).setNext list.tail none

/-- `list_begin`. -/
def listBegin (l : Links α) (list : KernelList α) : Option α := l.next list.head

/-- `list_next`. -/
def listNext (l : Links α) (e : α) : Option α :=
  if isHead l e || isInterior l e then l.next e else none

/-- `list_prev`. -/
def listPrev (l : Links α) (e : α) : Option α :=
  if isInterior l e || isTail l e then l.prev e else none

/-- `list_empty`. -/
def listEmpty (l : Links α) (list : KernelList α) : Bool := listBegin l list == some list.tail

/-- `list_insert`. -/
def listInsert (l : Links α) (before elem : α) : Option (Links α) :=
  if isInterior l before || isTail l before then do
    let l := l.setPrev elem (l.prev before)
    let l := l.setNext elem (some before)
    let p ← l.prev before
    let l := l.setNext p (some elem)
    return l.setPrev before (some elem)
  else none

/-- `list_splice`. -/
def listSplice (l : Links α) (before first last : α) : Option (Links α) :=
  if isInterior l before || isTail l before then
    if first = last then some l
    else do
      let last ← listPrev l last
      if isInterior l first && isInterior l last then
        -- `first->prev->next = last->next` and `last->next->prev = first->prev`
        let p ← l.prev first
        let l := l.setNext p (l.next last)
        let n ← l.next last
        let l := l.setPrev n (l.prev first)
        -- into the new list
        let l := l.setPrev first (l.prev before)
        let l := l.setNext last (some before)
        let q ← l.prev before
        let l := l.setNext q (some first)
        return l.setPrev before (some last)
      else none
  else none

/-- `list_push_front`. -/
def listPushFront (l : Links α) (list : KernelList α) (elem : α) : Option (Links α) := do
  let before ← listBegin l list
  listInsert l before elem

/-- `list_push_back`. -/
def listPushBack (l : Links α) (list : KernelList α) (elem : α) : Option (Links α) :=
  listInsert l list.tail elem

/-- `list_remove`. -/
def listRemove (l : Links α) (elem : α) : Option (α × Links α) :=
  if isInterior l elem then do
    let p ← l.prev elem
    let l := l.setNext p (l.next elem)
    let n ← l.next elem
    let l := l.setPrev n (l.prev elem)
    let next ← l.next elem
    return (next, l)
  else none

/-- `list_front`. -/
def listFront (l : Links α) (list : KernelList α) : Option α :=
  if listEmpty l list then none else l.next list.head

/-- `list_back`. -/
def listBack (l : Links α) (list : KernelList α) : Option α :=
  if listEmpty l list then none else l.prev list.tail

/-- `list_pop_front`. -/
def listPopFront (l : Links α) (list : KernelList α) : Option (α × Links α) := do
  let front ← listFront l list
  let (_, l) ← listRemove l front
  return (front, l)

/-- `list_pop_back`. -/
def listPopBack (l : Links α) (list : KernelList α) : Option (α × Links α) := do
  let back ← listBack l list
  let (_, l) ← listRemove l back
  return (back, l)

/-- `swap (&a->prev, &b->next)`. -/
def swapLinks (l : Links α) (a b : α) : Links α :=
  ⟨Function.update l.prev a (l.next b), Function.update l.next b (l.prev a)⟩

/-- The loop of `list_reverse`, which goes on at what was the next element. -/
def reverseLoop (tail : α) : Nat → Links α → α → Option (Links α)
  | 0, _, _ => none
  | fuel + 1, l, e =>
    if e = tail then some l
    else do
      let l := swapLinks l e e
      let e ← l.prev e
      reverseLoop tail fuel l e

/-- `list_reverse`. -/
def listReverse (fuel : Nat) (l : Links α) (list : KernelList α) : Option (Links α) :=
  if listEmpty l list then some l
  else do
    let e ← listBegin l list
    let l ← reverseLoop list.tail fuel l e
    let l := swapLinks l list.tail list.head
    let a ← l.next list.head
    let b ← l.prev list.tail
    return swapLinks l a b

end Functions

/-! ## Lists in memory -/

/-- The header elements and what is between them. -/
def KernelList.nodes (list : KernelList α) (xs : List α) : List α :=
  list.head :: (xs ++ [list.tail])

/-- The list has the elements `xs`. -/
structure IsList (l : Links α) (list : KernelList α) (xs : List α) : Prop where
  path : l.Path (list.nodes xs)
  first : l.prev list.head = none
  last : l.next list.tail = none

/-- Where two parts of a list meet: `p` is the last element of the first part or the head, and `n` is
the first of the second part or the tail. -/
structure Meet (list : KernelList α) (A B : List α) (p n : α) : Prop where
  left : ∃ X, list.head :: A = X ++ [p]
  right : ∃ Y, B ++ [list.tail] = n :: Y

namespace Meet

variable {list : KernelList α} {A B R : List α} {p n : α}

theorem exists_left (list : KernelList α) (A : List α) : ∃ X p, list.head :: A = X ++ [p] := by
  obtain ⟨X, p, hX⟩ := (eq_nil_or_concat (list.head :: A)).resolve_left nofun
  exact ⟨X, p, hX.trans (concat_eq_append ..)⟩

theorem exists_right (list : KernelList α) (B : List α) : ∃ n Y, B ++ [list.tail] = n :: Y :=
  exists_cons_of_ne_nil (by simp)

section

variable (h : Meet list A B p n)
include h

theorem mem_left : p ∈ list.head :: A := by
  obtain ⟨X, hX⟩ := h.left
  simp [hX]

theorem mem_right : n ∈ B ++ [list.tail] := by
  obtain ⟨Y, hY⟩ := h.right
  simp [hY]

theorem mem_nodes {xs : List α} (hA : A ⊆ xs) (hB : B ⊆ xs) :
    p ∈ list.nodes xs ∧ n ∈ list.nodes xs := by
  have hp := h.mem_left
  have hn := h.mem_right
  simp only [nodes, mem_cons, mem_append, not_mem_nil, or_false] at hp hn ⊢
  exact ⟨hp.imp_right fun hp => .inl (hA hp), .inr (hn.imp_left fun hn => hB hn)⟩

theorem nodes : ∃ X Y, list.head :: A = X ++ [p] ∧ B ++ [list.tail] = n :: Y ∧
    ∀ R, list.nodes (A ++ R ++ B) = X ++ p :: (R ++ n :: Y) := by
  obtain ⟨X, hX⟩ := h.left
  obtain ⟨Y, hY⟩ := h.right
  refine ⟨X, Y, hX, hY, fun R => ?_⟩
  calc list.nodes (A ++ R ++ B)
      = (list.head :: A) ++ (R ++ (B ++ [list.tail])) := by simp [KernelList.nodes]
    _ = X ++ p :: (R ++ n :: Y) := by simp [hX, hY]

end

end Meet

namespace IsList

variable {l l' : Links α} {list : KernelList α} {xs A R B : List α} {p n f t : α}

theorem nodup (h : IsList l list xs) : (list.nodes xs).Nodup := h.path.nodup h.first

section

variable (h : IsList l list (A ++ R ++ B))
include h

theorem nodup_parts : ((list.head :: A) ++ (R ++ (B ++ [list.tail]))).Nodup := by
  have hnd := h.nodup
  simpa [nodes] using hnd

theorem nodup_range : R.Nodup :=
  (nodup_append.mp (nodup_append.mp h.nodup_parts).2.1).1

theorem disjoint_left {x : α} (hx : x ∈ list.head :: A) : x ∉ R ++ (B ++ [list.tail]) :=
  fun hx' => (nodup_append.mp h.nodup_parts).2.2 x hx x hx' rfl

theorem disjoint_right {x : α} (hx : x ∈ R) : x ∉ B ++ [list.tail] :=
  fun hx' => (nodup_append.mp (nodup_append.mp h.nodup_parts).2.1).2.2 x hx x hx' rfl

end

theorem congr (h : IsList l list xs)
    (hsame : ∀ x ∈ list.nodes xs, l'.next x = l.next x ∧ l'.prev x = l.prev x) :
    IsList l' list xs where
  path := h.path.congr (fun x hx => (hsame x (dropLast_subset _ hx)).1)
    fun x hx => (hsame x (mem_of_mem_tail hx)).2
  first := by
    rw [(hsame list.head (by simp [nodes])).2]
    exact h.first
  last := by
    rw [(hsame list.tail (by simp [nodes])).1]
    exact h.last

theorem joined (h : IsList l list (A ++ B)) (hm : Meet list A B p n) : l.Joined p n := by
  obtain ⟨X, Y, -, -, hnodes⟩ := hm.nodes
  have hpath : l.Path (list.nodes (A ++ [] ++ B)) := by
    rw [append_nil]
    exact h.path
  rw [hnodes] at hpath
  exact (isChain_append_cons_cons.mp hpath).2.1

theorem meet (h : IsList l list (A ++ B)) (hn : (B ++ [list.tail]).head? = some n) :
    ∃ p, Meet list A B p n ∧ l.Joined p n := by
  obtain ⟨X, p, hX⟩ := Meet.exists_left list A
  have hm : Meet list A B p n := ⟨⟨X, hX⟩, head?_eq_some_iff.mp hn⟩
  exact ⟨p, hm, h.joined hm⟩

theorem element {e : α} (h : IsList l list (A ++ e :: B)) :
    ∃ p n, Meet list A B p n ∧ l.Joined p e ∧ l.Joined e n := by
  obtain ⟨X, p, hX⟩ := Meet.exists_left list A
  obtain ⟨n, Y, hY⟩ := Meet.exists_right list B
  refine ⟨p, n, ⟨⟨X, hX⟩, Y, hY⟩, h.joined ⟨⟨X, hX⟩, B ++ [list.tail], rfl⟩, ?_⟩
  have h' : IsList l list ((A ++ [e]) ++ B) := by
    rw [append_assoc]
    exact h
  exact h'.joined ⟨⟨list.head :: A, rfl⟩, Y, hY⟩

theorem range_ends (h : IsList l list (A ++ R ++ B)) (hm : Meet list A B p n)
    (hf : R.head? = some f) (ht : R.getLast? = some t) :
    l.Joined p f ∧ l.Joined t n ∧ (l.next f).isSome = true ∧ (l.prev t).isSome = true := by
  obtain ⟨R₁, hR₁⟩ := head?_eq_some_iff.mp hf
  obtain ⟨R₂, hR₂⟩ := getLast?_eq_some_iff.mp ht
  have hfirst : IsList l list (A ++ f :: (R₁ ++ B)) := by
    rw [hR₁] at h
    simpa using h
  have hlast : IsList l list ((A ++ R₂) ++ t :: B) := by
    rw [hR₂] at h
    simpa using h
  refine ⟨hfirst.joined ⟨hm.left, R₁ ++ B ++ [list.tail], rfl⟩, ?_, ?_, ?_⟩
  · refine h.joined ⟨⟨list.head :: (A ++ R₂), ?_⟩, hm.right⟩
    rw [hR₂]
    simp
  · obtain ⟨-, m, -, -, hnext⟩ := hfirst.element
    rw [hnext.1]
    rfl
  · obtain ⟨m, -, -, hprev, -⟩ := hlast.element
    rw [hprev.2]
    rfl

theorem begin_eq (h : IsList l list xs) : listBegin l list = (xs ++ [list.tail]).head? := by
  obtain ⟨n, Y, hY⟩ := Meet.exists_right list xs
  have hj := h.joined (A := []) (n := n) ⟨⟨[], rfl⟩, Y, hY⟩
  rw [hY]
  exact hj.1

section Change

variable [DecidableEq α]

theorem cut (h : IsList l list (A ++ R ++ B)) (hm : Meet list A B p n) :
    IsList (l.join p n) list (A ++ B) ∧ (l.join p n).Path R := by
  obtain ⟨X, Y, hX, hY, hnodes⟩ := hm.nodes
  have hnd := h.nodup
  have hpath := h.path
  rw [hnodes] at hnd hpath
  obtain ⟨hrest, hpart⟩ := hpath.cut hnd
  have hin : list.nodes (A ++ B) = X ++ p :: n :: Y := by
    have hnil := hnodes []
    rwa [append_nil] at hnil
  have hnd' : ((list.head :: A) ++ (R ++ (B ++ [list.tail]))).Nodup := by
    have heq := h.nodup
    simpa [nodes] using heq
  have hdisj := (nodup_append.mp hnd').2.2
  refine ⟨⟨by rw [hin]; exact hrest, ?_, ?_⟩, hpart⟩
  · rw [join_prev_ne l fun heq => hdisj list.head (by simp) n ?_ heq]
    · exact h.first
    · exact mem_append_right _ hm.mem_right
  · rw [join_next_ne l fun heq => hdisj p hm.mem_left list.tail (by simp) heq.symm]
    exact h.last

theorem paste (h : IsList l list (A ++ B)) (hm : Meet list A B p n) (hR : l.Path R)
    (hf : R.head? = some f) (ht : R.getLast? = some t) (hnd : R.Nodup)
    (hoff : ∀ x ∈ R, x ∉ list.nodes (A ++ B)) :
    IsList ((l.join p f).join t n) list (A ++ R ++ B) := by
  obtain ⟨X, Y, hX, hY, hnodes⟩ := hm.nodes
  have hin : list.nodes (A ++ B) = X ++ p :: n :: Y := by
    have hnil := hnodes []
    rwa [append_nil] at hnil
  have hfR : f ∈ R := mem_of_mem_head? hf
  have htR : t ∈ R := mem_of_getLast? ht
  have hnd₀ := h.nodup
  have hpath := h.path
  have hall : (X ++ p :: (R ++ n :: Y)).Nodup := by
    rw [hin] at hnd₀ hoff
    simp only [nodup_append, nodup_cons, mem_append, mem_cons] at hnd₀ hoff ⊢
    grind
  have hdisj : ∀ a ∈ list.head :: A, ∀ b ∈ B ++ [list.tail], a ≠ b := by
    have heq : list.nodes (A ++ B) = (list.head :: A) ++ (B ++ [list.tail]) := by
      simp [nodes]
    rw [heq] at hnd₀
    exact (nodup_append.mp hnd₀).2.2
  rw [hin] at hpath
  have hhead : list.head ∉ R := fun hx => hoff _ hx (by simp [nodes])
  have htail : list.tail ∉ R := fun hx => hoff _ hx (by simp [nodes])
  refine ⟨by rw [hnodes]; exact hpath.paste hR hf ht hall, ?_, ?_⟩
  · rw [join_prev_ne _ (hdisj list.head (by simp) n hm.mem_right),
      join_prev_ne _ fun heq : list.head = f => hhead (heq ▸ hfR)]
    exact h.first
  · rw [join_next_ne _ fun heq : list.tail = t => htail (heq ▸ htR),
      join_next_ne _ (hdisj p hm.mem_left list.tail (by simp)).symm]
    exact h.last

end Change

end IsList

/-! ## What the functions do to the links -/

@[simp] theorem interior_or_tail (l : Links α) (e : α) :
    (isInterior l e || isTail l e) = (l.prev e).isSome := by
  unfold isInterior isTail
  cases l.prev e <;> cases l.next e <;> rfl

@[simp] theorem head_or_interior (l : Links α) (e : α) :
    (isHead l e || isInterior l e) = (l.next e).isSome := by
  unfold isHead isInterior
  cases l.prev e <;> cases l.next e <;> rfl

theorem listNext_eq {l : Links α} {e n : α} (h : l.next e = some n) : listNext l e = some n := by
  simp [listNext, h]

theorem listPrev_eq {l : Links α} {e p : α} (h : l.prev e = some p) : listPrev l e = some p := by
  simp [listPrev, h]

section Links

variable [DecidableEq α] {l : Links α} {before elem p n : α}

theorem listInsert_eq (hp : l.prev before = some p) (hne : before ≠ elem) (hpe : p ≠ elem) :
    listInsert l before elem = some ((l.join p elem).join elem before) := by
  have hread : (l.setPrev elem (some p)).prev before = some p := by
    rw [Links.setPrev_ne _ _ hne, hp]
  simp only [listInsert, interior_or_tail, hp, isSome_some, if_true, Links.setNext_prev, hread,
    bind_eq_bind, bind_some, pure]
  simp only [Links.join, Links.setNext, Links.setPrev]
  rw [update_comm hpe]

theorem listRemove_eq (hp : l.Joined p elem) (hn : l.Joined elem n) (hpe : p ≠ elem) :
    listRemove l elem = some (n, l.join p n) := by
  have hread : (l.setNext p (some n)).next elem = some n := by
    rw [Links.setNext_ne _ _ hpe.symm, hn.1]
  simp [listRemove, isInterior, hp.2, hn.1, hread, Links.join]

/-- The links are exchanged for the range before `before`, after the range has been taken out. -/
theorem listSplice_eq {first last t q : α} (hb : (l.prev before).isSome = true) (hne : first ≠ last)
    (ht : l.Joined t last) (hp : l.Joined p first) (hpt : p ≠ t)
    (hfirst : (l.next first).isSome = true) (hlast : (l.prev t).isSome = true)
    (hq : (l.join p last).prev before = some q) (hbf : before ≠ first) (hqt : q ≠ t) :
    listSplice l before first last =
      some (((l.join p last).join q first).join t before) := by
  have hread : (l.setNext p (some last)).next t = some last := by
    rw [Links.setNext_ne _ _ hpt.symm, ht.1]
  have hlast' : listPrev l last = some t := listPrev_eq ht.2
  have hinterior : (isInterior l first && isInterior l t) = true := by
    simp [isInterior, hp.2, hfirst, hlast, ht.1]
  have hq' : ((l.setNext p (some last)).setPrev last (some p)).prev before = some q := hq
  have hq'' : (((l.setNext p (some last)).setPrev last (some p)).setPrev first (some q)).prev before =
      some q := by
    rw [Links.setPrev_ne _ _ hbf]
    exact hq
  simp only [listSplice, interior_or_tail, hb, if_true, if_neg hne, hlast', hinterior, hp.2, ht.1,
    hread, Links.setNext_prev, hq', hq'', bind_eq_bind, bind_some, pure]
  simp only [Links.join, Links.setNext, Links.setPrev]
  rw [update_comm hqt]

end Links

/-! ## One list -/

namespace IsList

variable [DecidableEq α] {l : Links α} {list : KernelList α} {xs A B : List α} {e before : α}

theorem insert (h : IsList l list (A ++ B)) (hb : (B ++ [list.tail]).head? = some before)
    (he : e ∉ list.nodes (A ++ B)) :
    ∃ l', listInsert l before e = some l' ∧ IsList l' list (A ++ e :: B) ∧
      l.SameOff l' (fun x => x = e ∨ x ∈ list.nodes (A ++ B)) := by
  obtain ⟨p, hm, hj⟩ := h.meet hb
  obtain ⟨hp, hn⟩ := hm.mem_nodes (subset_append_left A B) (subset_append_right A B)
  have hpe : p ≠ e := fun heq => he (heq ▸ hp)
  have hbe : before ≠ e := fun heq => he (heq ▸ hn)
  refine ⟨_, listInsert_eq hj.2 hbe hpe, ?_, ?_⟩
  · have hpaste := h.paste hm (isChain_singleton e) rfl rfl (nodup_singleton e)
      (by simpa using he)
    rwa [append_assoc] at hpaste
  · exact (l.join_sameOff (.inr hp) (.inl rfl)).trans (join_sameOff _ (.inl rfl) (.inr hn))

theorem remove (h : IsList l list (A ++ e :: B)) :
    ∃ n l', (B ++ [list.tail]).head? = some n ∧ listRemove l e = some (n, l') ∧
      IsList l' list (A ++ B) ∧ l.SameOff l' (· ∈ list.nodes (A ++ e :: B)) := by
  obtain ⟨p, n, hm, hpe, hen⟩ := h.element
  obtain ⟨hp, hn⟩ := hm.mem_nodes (subset_append_left A (e :: B))
    fun x hx => mem_append_right A (mem_cons_of_mem e hx)
  have hne : p ≠ e := by
    have hnd : ((list.head :: A) ++ e :: (B ++ [list.tail])).Nodup := by
      have hnd := h.nodup
      simpa [nodes] using hnd
    exact (nodup_append.mp hnd).2.2 p hm.mem_left e (by simp)
  have h' : IsList l list (A ++ [e] ++ B) := by
    rw [append_assoc]
    exact h
  exact ⟨n, _, head?_eq_some_iff.mpr hm.right, listRemove_eq hpe hen hne, (h'.cut hm).1,
    l.join_sameOff hp hn⟩

theorem empty_iff (h : IsList l list xs) : listEmpty l list = true ↔ xs = [] := by
  unfold listEmpty
  rw [h.begin_eq]
  cases xs with
  | nil => simp
  | cons x xs =>
    have hnd := h.nodup
    simp only [nodes, nodup_cons, cons_append, mem_append, mem_singleton] at hnd
    simp
    tauto

theorem front_eq (h : IsList l list (e :: xs)) : listFront l list = some e := by
  have hempty : ¬ listEmpty l list = true := h.empty_iff.not.mpr nofun
  unfold listFront
  rw [if_neg hempty]
  exact h.begin_eq

theorem back_eq (h : IsList l list (xs ++ [e])) : listBack l list = some e := by
  have hempty : ¬ listEmpty l list = true := h.empty_iff.not.mpr (by simp)
  unfold listBack
  rw [if_neg hempty]
  have h' : IsList l list ((xs ++ [e]) ++ []) := by
    rw [append_nil]
    exact h
  exact (h'.joined ⟨⟨list.head :: xs, rfl⟩, [], rfl⟩).2

theorem popFront (h : IsList l list (e :: xs)) :
    ∃ l', listPopFront l list = some (e, l') ∧ IsList l' list xs ∧
      l.SameOff l' (· ∈ list.nodes (e :: xs)) := by
  obtain ⟨n, l', -, hl', hlist, hsame⟩ := remove (A := []) h
  exact ⟨l', by simp [listPopFront, h.front_eq, hl'], hlist, hsame⟩

theorem popBack (h : IsList l list (xs ++ [e])) :
    ∃ l', listPopBack l list = some (e, l') ∧ IsList l' list xs ∧
      l.SameOff l' (· ∈ list.nodes (xs ++ [e])) := by
  obtain ⟨n, l', -, hl', hlist, hsame⟩ := h.remove
  rw [append_nil] at hlist
  exact ⟨l', by simp [listPopBack, h.back_eq, hl'], hlist, hsame⟩

end IsList

/-! ## Places

A place in a list is the element there or the tail, so it is told by what is behind it. -/

section Places

variable {l : Links α} {list : KernelList α} {xs A B D : List α} {x : α}

/-- The place in front of `ys`, which are the last elements of a list. -/
def KernelList.place (list : KernelList α) (ys : List α) : α := (ys ++ [list.tail]).head (by simp)

@[simp] theorem place_nil (list : KernelList α) : list.place [] = list.tail := rfl

@[simp] theorem place_cons (list : KernelList α) (y : α) (ys : List α) : list.place (y :: ys) = y := rfl

theorem place_eq (list : KernelList α) (ys : List α) :
    (ys ++ [list.tail]).head? = some (list.place ys) := head?_eq_some_head _

theorem place_mem (list : KernelList α) (ys : List α) : list.place ys ∈ ys ++ [list.tail] :=
  head_mem _

namespace IsList

theorem begin_place (h : IsList l list xs) : listBegin l list = some (list.place xs) := by
  rw [h.begin_eq, place_eq]

section

variable (h : IsList l list (A ++ x :: B))
include h

theorem joined_place : l.Joined x (list.place B) := by
  have h' : IsList l list ((A ++ [x]) ++ B) := by
    rw [append_assoc]
    exact h
  exact h'.joined ⟨⟨list.head :: A, rfl⟩, head?_eq_some_iff.mp (place_eq list B)⟩

theorem listNext : listNext l x = some (list.place B) :=
  listNext_eq h.joined_place.1

theorem listPrev : listPrev l (list.place B) = some x :=
  listPrev_eq h.joined_place.2

end

theorem place_ne (h : IsList l list (A ++ x :: (B ++ D))) : x ≠ list.place D := by
  have hnd : ((list.head :: A) ++ x :: (B ++ (D ++ [list.tail]))).Nodup := by
    have hnd := h.nodup
    simpa [nodes] using hnd
  have hx := (nodup_cons.mp (nodup_append.mp hnd).2.1).1
  exact fun heq => hx (mem_append_right B (heq ▸ place_mem list D))

theorem place_eq_tail (h : IsList l list (A ++ B)) : list.place B = list.tail ↔ B = [] := by
  cases B with
  | nil => simp
  | cons x B =>
    have h' : IsList l list (A ++ x :: (B ++ [])) := by
      rw [append_nil]
      exact h
    exact iff_of_false h'.place_ne nofun

end IsList

end Places

/-! ## Reversing -/

section Reverse

variable [DecidableEq α] {l : Links α} {list : KernelList α} {xs ys : List α} {e tail : α}

theorem reverseLoop_eq {fuel : Nat} (h : l.Path (ys ++ [tail])) (hnd : (ys ++ [tail]).Nodup)
    (he : (ys ++ [tail]).head? = some e) (hfuel : ys.length < fuel) :
    ∃ l', reverseLoop tail fuel l e = some l' ∧
      (∀ x ∈ ys, l'.next x = l.prev x ∧ l'.prev x = l.next x) ∧ l.SameOff l' (· ∈ ys) := by
  induction ys generalizing l e fuel with
  | nil =>
    cases he
    cases fuel with
    | zero => cases hfuel
    | succ fuel => exact ⟨l, by simp [reverseLoop], nofun, .refl l _⟩
  | cons y ys ih =>
    cases he
    cases fuel with
    | zero => cases hfuel
    | succ fuel =>
      obtain ⟨n, hn⟩ : ∃ n, (ys ++ [tail]).head? = some n :=
        ⟨_, head?_eq_some_head (by simp)⟩
      obtain ⟨Y, hY⟩ := head?_eq_some_iff.mp hn
      have hnext : l.next y = some n := by
        rw [cons_append, hY] at h
        exact (isChain_cons_cons.mp h).1.1
      rw [cons_append, nodup_cons] at hnd
      have hyt : y ≠ tail := fun heq => hnd.1 (by simp [heq])
      -- the other elements have the links they had
      have hsame : l.SameOff (swapLinks l y y) (· = y) := fun x hx =>
        ⟨update_of_ne hx .., update_of_ne hx ..⟩
      have hpath : (swapLinks l y y).Path (ys ++ [tail]) := by
        refine Links.Path.congr h.tail (fun x hx => (hsame x ?_).1) fun x hx => (hsame x ?_).2
        · exact fun heq => hnd.1 (heq ▸ dropLast_subset _ hx)
        · exact fun heq => hnd.1 (heq ▸ mem_of_mem_tail hx)
      obtain ⟨l', hl', hswap, hrest⟩ := ih hpath hnd.2 hn (Nat.lt_of_succ_lt_succ hfuel)
      have hyys : y ∉ ys := fun hy => hnd.1 (mem_append_left _ hy)
      refine ⟨l', ?_, fun x hx => ?_, ?_⟩
      · have hprev : (swapLinks l y y).prev y = some n := by
          simp [swapLinks, hnext]
        simp [reverseLoop, hyt, hprev, hl']
      · rcases mem_cons.mp hx with rfl | hx
        · rw [(hrest x hyys).1, (hrest x hyys).2]
          exact ⟨update_self .., update_self ..⟩
        · have hxy : x ≠ y := fun heq => hyys (heq ▸ hx)
          rw [(hswap x hx).1, (hswap x hx).2]
          exact ⟨(hsame x hxy).2, (hsame x hxy).1⟩
      · exact (hsame.mono fun x hx => by simp [hx]).trans
          (hrest.mono fun x hx => mem_cons_of_mem _ hx)

theorem IsList.reverse {fuel : Nat} (h : IsList l list xs) (hfuel : xs.length < fuel) :
    ∃ l', listReverse fuel l list = some l' ∧ IsList l' list xs.reverse ∧
      l.SameOff l' (· ∈ list.nodes xs) := by
  by_cases hnil : xs = []
  · subst hnil
    exact ⟨l, by simp [listReverse, h.empty_iff.mpr rfl], h, .refl l _⟩
  obtain ⟨f, hf⟩ : ∃ f, xs.head? = some f := ⟨_, head?_eq_some_head hnil⟩
  obtain ⟨t, ht⟩ : ∃ t, xs.getLast? = some t := ⟨_, getLast?_eq_some_getLast hnil⟩
  have hfx : f ∈ xs := mem_of_mem_head? hf
  have htx : t ∈ xs := mem_of_getLast? ht
  have hnd := h.nodup
  have hpath := h.path
  simp only [nodes, nodup_cons, mem_append, mem_singleton, not_or] at hnd
  obtain ⟨⟨hhead, hht⟩, hnd⟩ := hnd
  have htail : list.tail ∉ xs := fun hx => (nodup_append.mp hnd).2.2 _ hx _ (by simp) rfl
  have hbegin : (xs ++ [list.tail]).head? = some f := by simp [head?_append, hf]
  obtain ⟨l₁, hl₁, hswap, hsame⟩ := reverseLoop_eq hpath.tail hnd hbegin hfuel
  -- the links of the first and the last element
  obtain ⟨B, hB⟩ := head?_eq_some_iff.mp hf
  obtain ⟨A, hA⟩ := getLast?_eq_some_iff.mp ht
  have hjf : l.Joined list.head f :=
    IsList.joined (A := []) h ⟨⟨[], rfl⟩, head?_eq_some_iff.mp hbegin⟩
  have hjt : l.Joined t list.tail := by
    have h' : IsList l list (xs ++ []) := by
      rw [append_nil]
      exact h
    exact h'.joined ⟨⟨list.head :: A, by rw [hA]; rfl⟩, [], rfl⟩
  have hnhead : l₁.next list.head = some f := (hsame _ hhead).1.trans hjf.1
  have hptail : l₁.prev list.tail = some t := (hsame _ htail).2.trans hjt.2
  have hnf : l₁.next f = some list.head := (hswap f hfx).1.trans hjf.2
  have hpt : l₁.prev t = some list.tail := (hswap t htx).2.trans hjt.1
  have hfh : f ≠ list.head := fun heq => hhead (heq ▸ hfx)
  have htt : t ≠ list.tail := fun heq => htail (heq ▸ htx)
  -- an empty list between whose headers the reversed elements are put
  have hempty : IsList (l₁.join list.head list.tail) list ([] ++ []) := by
    refine ⟨isChain_cons_cons.mpr ⟨Links.join_joined .., isChain_singleton _⟩, ?_, ?_⟩
    · rw [Links.join_prev_ne _ hht, (hsame _ hhead).2]
      exact h.first
    · rw [Links.join_next_ne _ (Ne.symm hht), (hsame _ htail).1]
      exact h.last
  have hrev : (l₁.join list.head list.tail).Path xs.reverse := by
    have hmid : l.Path xs := (isChain_append.mp hpath.tail).1
    exact (hmid.reverse hswap).join_off (by simpa using hhead) (by simpa using htail)
  have hlist := hempty.paste ⟨⟨[], rfl⟩, [], rfl⟩ hrev (by rw [head?_reverse]; exact ht)
    (by rw [getLast?_reverse]; exact hf)
    (nodup_reverse.mpr (nodup_append.mp hnd).1) (by
      intro x hx
      rw [mem_reverse] at hx
      simp only [nodes, nil_append, mem_cons, not_mem_nil, or_false, not_or]
      exact ⟨fun heq => hhead (heq ▸ hx), fun heq => htail (heq ▸ hx)⟩)
  rw [append_nil, nil_append] at hlist
  refine ⟨_, ?_, hlist, ?_⟩
  · have hempty' : ¬ listEmpty l list = true := h.empty_iff.not.mpr hnil
    have hswap₂ : swapLinks (swapLinks l₁ list.tail list.head) t f =
        ((l₁.join list.head list.tail).join list.head t).join f list.tail := by
      simp only [swapLinks, Links.join, Links.setNext, Links.setPrev, hnhead, hptail,
        update_of_ne hfh, update_of_ne htt, hnf, hpt, update_idem]
      rw [update_comm htt, update_idem]
    unfold listReverse
    rw [if_neg hempty', h.begin_eq, hbegin]
    simp only [bind_eq_bind, bind_some, hl₁, pure]
    have ha : (swapLinks l₁ list.tail list.head).next list.head = some t := by
      simp [swapLinks, hptail]
    have hb : (swapLinks l₁ list.tail list.head).prev list.tail = some f := by
      simp [swapLinks, hnhead]
    rw [ha, hb, bind_some, bind_some, hswap₂]
  · have hin : ∀ x ∈ xs, x ∈ list.nodes xs := fun x hx => by simp [nodes, hx]
    have hh : list.head ∈ list.nodes xs := by simp [nodes]
    have ht' : list.tail ∈ list.nodes xs := by simp [nodes]
    exact ((hsame.mono hin).trans (Links.join_sameOff _ hh ht')).trans
      ((Links.join_sameOff _ hh (hin t htx)).trans (Links.join_sameOff _ (hin f hfx) ht'))

end Reverse

/-! ## Several lists -/

/-- The lists have the elements `xs`, and no two of them have a node in common. -/
structure Holds (l : Links α) (lists : ι → KernelList α) (xs : ι → List α) : Prop where
  isList : ∀ i, IsList l (lists i) (xs i)
  apart : ∀ {i j x}, x ∈ (lists i).nodes (xs i) → x ∈ (lists j).nodes (xs j) → i = j

section Family

variable {l l' : Links α} {lists : ι → KernelList α} {xs : ι → List α} {i j : ι}

theorem Holds.isList_of (h : Holds l lists xs) {X : List α} (hi : xs i = X) :
    IsList l (lists i) X := by
  rw [← hi]
  exact h.isList i

theorem Holds.sameOthers (h : Holds l lists xs) {E : List α}
    (hsame : l.SameOff l' fun x => x ∈ E ∨ x ∈ (lists i).nodes (xs i))
    (hextra : ∀ x ∈ E, ∀ j, x ∉ (lists j).nodes (xs j)) (hj : j ≠ i) :
    ∀ x ∈ (lists j).nodes (xs j), l'.next x = l.next x ∧ l'.prev x = l.prev x := by
  intro x hx
  refine hsame x ?_
  rintro (he | hxi)
  · exact hextra x he j hx
  · exact hj (h.apart hx hxi)

theorem Holds.splice_nil [DecidableEq α] (h : Holds l lists xs) {C D : List α} {before last : α}
    (hj : xs j = C ++ D) (hbefore : (D ++ [(lists j).tail]).head? = some before) :
    listSplice l before last last = some l := by
  obtain ⟨q, -, hq⟩ := (h.isList_of hj).meet hbefore
  have hb : (l.prev before).isSome = true := by
    rw [hq.2]
    rfl
  simp [listSplice, hb]

variable [DecidableEq ι]

theorem Holds.update (h : Holds l lists xs) {ys E : List α} (hi : IsList l' (lists i) ys)
    (hsame : l.SameOff l' fun x => x ∈ E ∨ x ∈ (lists i).nodes (xs i))
    (hys : ∀ x ∈ ys, x ∈ E ∨ x ∈ xs i)
    (hextra : ∀ x ∈ E, ∀ j, x ∉ (lists j).nodes (xs j)) :
    Holds l' lists (Function.update xs i ys) := by
  have hnodes : ∀ x ∈ (lists i).nodes ys, x ∈ E ∨ x ∈ (lists i).nodes (xs i) := by
    intro x hx
    simp only [nodes, mem_cons, mem_append] at hx ⊢
    rcases hx with hx | hx | hx
    · exact .inr (.inl hx)
    · exact (hys x hx).imp_right fun hx => .inr (.inl hx)
    · exact .inr (.inr (.inr hx))
  have hother : ∀ j, j ≠ i → ∀ x ∈ (lists j).nodes (xs j),
      ¬ (x ∈ E ∨ x ∈ (lists i).nodes (xs i)) := by
    rintro j hj x hx (he | hxi)
    · exact hextra x he j hx
    · exact hj (h.apart hx hxi)
  refine ⟨fun j => ?_, fun {j k x} hj hk => ?_⟩
  · by_cases hj : j = i
    · subst hj
      rw [update_self]
      exact hi
    · rw [update_of_ne hj]
      exact (h.isList j).congr fun x hx => hsame x (hother j hj x hx)
  · by_cases hji : j = i
    · subst hji
      rw [update_self] at hj
      by_cases hki : k = j
      · exact hki.symm
      · rw [update_of_ne hki] at hk
        exact absurd (hnodes x hj) (hother k hki x hk)
    · rw [update_of_ne hji] at hj
      by_cases hki : k = i
      · subst hki
        rw [update_self] at hk
        exact absurd (hnodes x hk) (hother j hji x hj)
      · rw [update_of_ne hki] at hk
        exact h.apart hj hk

theorem mem_nodes_update {A R B : List α} {x : α} (hi : xs i = A ++ R ++ B)
    (hx : x ∈ (lists j).nodes (Function.update xs i (A ++ B) j)) :
    x ∈ (lists i).nodes (xs i) ∨ x ∈ (lists j).nodes (xs j) := by
  by_cases hji : j = i
  · subst hji
    rw [update_self] at hx
    refine .inl ?_
    rw [hi]
    simp only [nodes, mem_cons, mem_append] at hx ⊢
    tauto
  · rw [update_of_ne hji] at hx
    exact .inr hx

variable [DecidableEq α]

theorem Holds.cut (h : Holds l lists xs) {A R B : List α} {p n : α} (hi : xs i = A ++ R ++ B)
    (hm : Meet (lists i) A B p n) :
    Holds (l.join p n) lists (Function.update xs i (A ++ B)) ∧
      ∀ x ∈ R, ∀ k, x ∉ (lists k).nodes (Function.update xs i (A ++ B) k) := by
  have hlist := h.isList_of hi
  have hmem : p ∈ (lists i).nodes (xs i) ∧ n ∈ (lists i).nodes (xs i) := by
    rw [hi]
    exact hm.mem_nodes (fun x hx => by simp [hx]) fun x hx => by simp [hx]
  constructor
  · refine h.update (E := []) (hlist.cut hm).1 (l.join_sameOff (.inr hmem.1) (.inr hmem.2)) ?_ nofun
    intro x hx
    rw [hi]
    rcases mem_append.mp hx with hx | hx <;> simp [hx]
  · intro x hx k hk
    by_cases hki : k = i
    · subst hki
      rw [update_self] at hk
      have hk : x ∈ ((lists k).head :: A) ++ (B ++ [(lists k).tail]) := by
        simpa [nodes] using hk
      rcases mem_append.mp hk with hk | hk
      · exact hlist.disjoint_left hk (mem_append_left _ hx)
      · exact hlist.disjoint_right hx hk
    · rw [update_of_ne hki] at hk
      refine hki (h.apart hk ?_)
      rw [hi]
      simp [nodes, hx]

/-- `list_splice`: the elements `R` go from list `i` to a place in list `j`, which may be the same. -/
theorem Holds.splice (h : Holds l lists xs) {A R B C D : List α} {before first last : α}
    (hi : xs i = A ++ R ++ B) (hfirst : (R ++ (B ++ [(lists i).tail])).head? = some first)
    (hlast : (B ++ [(lists i).tail]).head? = some last)
    (hj : Function.update xs i (A ++ B) j = C ++ D)
    (hbefore : (D ++ [(lists j).tail]).head? = some before) :
    ∃ l', listSplice l before first last = some l' ∧
      Holds l' lists (Function.update (Function.update xs i (A ++ B)) j (C ++ R ++ D)) ∧
      l.SameOff l' fun x => x ∈ (lists i).nodes (xs i) ∨ x ∈ (lists j).nodes (xs j) := by
  have hlist := h.isList_of hi
  by_cases hR : R = []
  · -- nothing is moved
    subst hR
    rw [nil_append, hlast] at hfirst
    cases hfirst
    have hsame₁ : Function.update xs i (A ++ B) = xs := by
      rw [update_eq_self_iff, hi, append_nil]
    rw [hsame₁] at hj ⊢
    have hsame₂ : Function.update xs j (C ++ [] ++ D) = xs := by
      rw [update_eq_self_iff, hj, append_nil]
    rw [hsame₂]
    exact ⟨l, h.splice_nil hj hbefore, h, .refl l _⟩
  obtain ⟨t, ht⟩ : ∃ t, R.getLast? = some t := ⟨_, getLast?_eq_some_getLast hR⟩
  have hf : R.head? = some first := by
    rw [head?_append_of_ne_nil _ hR] at hfirst
    exact hfirst
  have hfR : first ∈ R := mem_of_mem_head? hf
  have htR : t ∈ R := mem_of_getLast? ht
  -- the range is taken out of list `i`
  obtain ⟨X, p, hX⟩ := Meet.exists_left (lists i) A
  have hm : Meet (lists i) A B p last := ⟨⟨X, hX⟩, head?_eq_some_iff.mp hlast⟩
  obtain ⟨hholds, hoff⟩ := h.cut hi hm
  -- and put into list `j`
  have hj₁ := hholds.isList_of hj
  obtain ⟨q, hmj, hq⟩ := hj₁.meet hbefore
  have hmemj : q ∈ (lists j).nodes (Function.update xs i (A ++ B) j) ∧
      before ∈ (lists j).nodes (Function.update xs i (A ++ B) j) := by
    rw [hj]
    exact hmj.mem_nodes (subset_append_left C D) (subset_append_right C D)
  have hpaste := hj₁.paste hmj (hlist.cut hm).2 hf ht hlist.nodup_range fun x hx => by
    have hx := hoff x hx j
    rwa [hj] at hx
  have hsame₂ : (l.join p last).SameOff (((l.join p last).join q first).join t before)
      fun x => x ∈ R ∨ x ∈ (lists j).nodes (Function.update xs i (A ++ B) j) :=
    ((l.join p last).join_sameOff (.inr hmemj.1) (.inl hfR)).trans
      (join_sameOff _ (.inl htR) (.inr hmemj.2))
  refine ⟨((l.join p last).join q first).join t before, ?_, ?_, ?_⟩
  · obtain ⟨hjp, hjt, hnf, hpt⟩ := hlist.range_ends hm hf ht
    have hb : (l.prev before).isSome = true := by
      by_cases hbl : before = last
      · rw [hbl, hjt.2]
        rfl
      · rw [← join_prev_ne (a := p) l hbl, hq.2]
        rfl
    refine listSplice_eq hb ?_ hjt hjp ?_ hnf hpt hq.2 ?_ ?_
    · rintro rfl
      exact hlist.disjoint_right hfR hm.mem_right
    · rintro rfl
      exact hlist.disjoint_left hm.mem_left (mem_append_left _ htR)
    · rintro rfl
      exact hoff before hfR j hmemj.2
    · rintro rfl
      exact hoff q htR j hmemj.1
  · refine hholds.update hpaste hsame₂ ?_ hoff
    intro x hx
    rw [hj]
    simp only [mem_append] at hx ⊢
    tauto
  · have hmem : p ∈ (lists i).nodes (xs i) ∧ last ∈ (lists i).nodes (xs i) := by
      rw [hi]
      exact hm.mem_nodes (fun x hx => by simp [hx]) fun x hx => by simp [hx]
    refine (l.join_sameOff (.inl hmem.1) (.inl hmem.2)).trans (hsame₂.mono ?_)
    rintro x (hx | hx)
    · refine .inl ?_
      rw [hi]
      simp [nodes, hx]
    · exact mem_nodes_update hi hx

end Family

/-! ## The operations on sequences -/

/-- A call of a function on lists. -/
inductive ListOp (ι α : Type)
  | insert (before elem : α)
  | splice (before first last : α)
  | pushFront (i : ι) (elem : α)
  | pushBack (i : ι) (elem : α)
  | remove (elem : α)
  | popFront (i : ι)
  | popBack (i : ι)
  | reverse (i : ι)

open ListOp

namespace ListOp

variable [DecidableEq α]

/-- The call, with the element that it returns. -/
def run (lists : ι → KernelList α) (fuel : Nat) (l : Links α) :
    ListOp ι α → Option (Option α × Links α)
  | .insert before elem => (listInsert l before elem).map (none, ·)
  | .splice before first last => (listSplice l before first last).map (none, ·)
  | .pushFront i elem => (listPushFront l (lists i) elem).map (none, ·)
  | .pushBack i elem => (listPushBack l (lists i) elem).map (none, ·)
  | .remove elem => (listRemove l elem).map fun r => (some r.1, r.2)
  | .popFront i => (listPopFront l (lists i)).map fun r => (some r.1, r.2)
  | .popBack i => (listPopBack l (lists i)).map fun r => (some r.1, r.2)
  | .reverse i => (listReverse fuel l (lists i)).map (none, ·)

variable [DecidableEq ι]

/-- An element that is in no list. -/
def Free (lists : ι → KernelList α) (xs : ι → List α) (elem : α) : Prop :=
  ∀ i, elem ∉ (lists i).nodes (xs i)

/-- The operation on sequences: from `xs` to `xs'`, in the lists `on`, with the element returned. An
element is named by what is in front of it and what is behind it. -/
inductive Does (lists : ι → KernelList α) (xs : ι → List α) :
    ListOp ι α → List ι → Option α → (ι → List α) → Prop
  | insert {i A B before elem} (hi : xs i = A ++ B)
      (hbefore : (B ++ [(lists i).tail]).head? = some before) (helem : Free lists xs elem) :
      Does lists xs (.insert before elem) [i] none (Function.update xs i (A ++ elem :: B))
  | splice {i j A R B C D before first last} (hi : xs i = A ++ R ++ B)
      (hfirst : (R ++ (B ++ [(lists i).tail])).head? = some first)
      (hlast : (B ++ [(lists i).tail]).head? = some last)
      (hj : Function.update xs i (A ++ B) j = C ++ D)
      (hbefore : (D ++ [(lists j).tail]).head? = some before) :
      Does lists xs (.splice before first last) [i, j] none
        (Function.update (Function.update xs i (A ++ B)) j (C ++ R ++ D))
  | pushFront {i elem} (helem : Free lists xs elem) :
      Does lists xs (.pushFront i elem) [i] none (Function.update xs i (elem :: xs i))
  | pushBack {i elem} (helem : Free lists xs elem) :
      Does lists xs (.pushBack i elem) [i] none (Function.update xs i (xs i ++ [elem]))
  | remove {i A elem B next} (hi : xs i = A ++ elem :: B)
      (hnext : (B ++ [(lists i).tail]).head? = some next) :
      Does lists xs (.remove elem) [i] (some next) (Function.update xs i (A ++ B))
  | popFront {i elem B} (hi : xs i = elem :: B) :
      Does lists xs (.popFront i) [i] (some elem) (Function.update xs i B)
  | popBack {i elem A} (hi : xs i = A ++ [elem]) :
      Does lists xs (.popBack i) [i] (some elem) (Function.update xs i A)
  | reverse {i} : Does lists xs (.reverse i) [i] none (Function.update xs i (xs i).reverse)

end ListOp

section Refinement

variable [DecidableEq ι] {l l' : Links α} {lists : ι → KernelList α} {xs xs' : ι → List α} {i : ι}
  {op : ListOp ι α} {on : List ι} {r : Option α}

/-- What an operation on the links has to do. -/
def Refines (lists : ι → KernelList α) (xs xs' : ι → List α) (on : List ι) (l l' : Links α) : Prop :=
  Holds l' lists xs' ∧
    ∀ j, j ∉ on → ∀ x ∈ (lists j).nodes (xs j), l'.next x = l.next x ∧ l'.prev x = l.prev x

theorem Holds.rearrange (h : Holds l lists xs) {X ys : List α} (hi : xs i = X)
    (hlist : IsList l' (lists i) ys) (hys : ys ⊆ X)
    (hsame : l.SameOff l' (· ∈ (lists i).nodes X)) :
    Refines lists xs (Function.update xs i ys) [i] l l' := by
  subst hi
  have hsame : l.SameOff l' fun x => x ∈ ([] : List α) ∨ x ∈ (lists i).nodes (xs i) :=
    hsame.mono fun _ => .inr
  exact ⟨h.update hlist hsame (fun x hx => .inr (hys hx)) nofun,
    fun j hj => h.sameOthers hsame nofun (by simpa using hj)⟩

variable [DecidableEq α]

theorem Holds.insert (h : Holds l lists xs) {A B : List α} {before elem : α} (hi : xs i = A ++ B)
    (hbefore : (B ++ [(lists i).tail]).head? = some before)
    (helem : ListOp.Free lists xs elem) :
    ∃ l', listInsert l before elem = some l' ∧
      Refines lists xs (Function.update xs i (A ++ elem :: B)) [i] l l' := by
  obtain ⟨l', hl', hnew, hsame⟩ := (h.isList_of hi).insert hbefore (by rw [← hi]; exact helem i)
  have hsame : l.SameOff l' fun x => x ∈ [elem] ∨ x ∈ (lists i).nodes (xs i) := by
    rw [hi]
    simpa using hsame
  have hextra : ∀ x ∈ [elem], ∀ j, x ∉ (lists j).nodes (xs j) := by
    intro x hx
    rw [mem_singleton.mp hx]
    exact helem
  refine ⟨l', hl', h.update hnew hsame ?_ hextra, fun j hj => h.sameOthers hsame hextra ?_⟩
  · intro x hx
    rw [hi]
    simp only [mem_append, mem_cons, not_mem_nil, or_false] at hx ⊢
    tauto
  · simpa using hj

/-- **Lists are sequences.** The functions on lists do what they are to do with the sequences of the
elements, keep all lists well formed and change no link of a list that they are not about. -/
theorem list_refines_sequence (h : Holds l lists xs) (hdoes : op.Does lists xs on r xs') :
    ∃ rounds, ∀ fuel, rounds < fuel →
      ∃ l', op.run lists fuel l = some (r, l') ∧ Refines lists xs xs' on l l' := by
  cases hdoes with
  | insert hi hbefore helem =>
    obtain ⟨l', hl', href⟩ := h.insert hi hbefore helem
    exact ⟨0, fun _ _ => ⟨l', by simp [run, hl'], href⟩⟩
  | splice hi hfirst hlast hj hbefore =>
    obtain ⟨l', hl', hholds, hsame⟩ := h.splice hi hfirst hlast hj hbefore
    refine ⟨0, fun _ _ => ⟨l', by simp [run, hl'], hholds, fun k hk x hx => hsame x ?_⟩⟩
    rintro (hx' | hx')
    · exact hk (by simp [h.apart hx hx'])
    · exact hk (by simp [h.apart hx hx'])
  | @pushFront i elem helem =>
    obtain ⟨before, hbefore⟩ : ∃ before, (xs i ++ [(lists i).tail]).head? = some before :=
      ⟨_, head?_eq_some_head (by simp)⟩
    obtain ⟨l', hl', href⟩ := h.insert (A := []) rfl hbefore helem
    refine ⟨0, fun _ _ => ⟨l', ?_, href⟩⟩
    have hbegin := (h.isList i).begin_eq
    simp [run, listPushFront, hbegin, hbefore, hl']
  | @pushBack i elem helem =>
    obtain ⟨l', hl', href⟩ := h.insert (B := []) (append_nil (xs i)).symm rfl helem
    exact ⟨0, fun _ _ => ⟨l', by simp [run, listPushBack, hl'], href⟩⟩
  | @remove i A elem B next hi hnext =>
    obtain ⟨n, l', hn, hl', hnew, hsame⟩ := (h.isList_of hi).remove
    rw [hnext] at hn
    cases hn
    refine ⟨0, fun _ _ => ⟨l', by simp [run, hl'], h.rearrange hi hnew ?_ hsame⟩⟩
    exact append_subset.mpr ⟨fun x hx => by simp [hx], fun x hx => by simp [hx]⟩
  | @popFront i elem B hi =>
    obtain ⟨l', hl', hnew, hsame⟩ := (h.isList_of hi).popFront
    refine ⟨0, fun _ _ => ⟨l', by simp [run, hl'], h.rearrange hi hnew ?_ hsame⟩⟩
    exact subset_cons_self elem B
  | @popBack i elem A hi =>
    obtain ⟨l', hl', hnew, hsame⟩ := (h.isList_of hi).popBack
    refine ⟨0, fun _ _ => ⟨l', by simp [run, hl'], h.rearrange hi hnew ?_ hsame⟩⟩
    exact subset_append_left A [elem]
  | @reverse i =>
    refine ⟨(xs i).length, fun fuel hfuel => ?_⟩
    obtain ⟨l', hl', hnew, hsame⟩ := (h.isList i).reverse hfuel
    exact ⟨l', by simp [run, hl'], h.rearrange rfl hnew (by simp) hsame⟩

/-- Two lists, of three elements and of one. -/
def twoLists : Bool → KernelList Nat
  | false => ⟨0, 1⟩
  | true => ⟨2, 3⟩

def twoSeqs : Bool → List Nat
  | false => [10, 11, 12]
  | true => [20]

def twoLinks : Links Nat where
  prev
    | 10 => some 0
    | 11 => some 10
    | 12 => some 11
    | 1 => some 12
    | 20 => some 2
    | 3 => some 20
    | _ => none
  next
    | 0 => some 10
    | 10 => some 11
    | 11 => some 12
    | 12 => some 1
    | 2 => some 20
    | 20 => some 3
    | _ => none

theorem twoLinks_holds : Holds twoLinks twoLists twoSeqs where
  isList i := by
    cases i with
    | false | true => exact ⟨by simp [Links.Path, Links.Joined, nodes, twoLists, twoSeqs, twoLinks],
        rfl, rfl⟩
  apart {i j x} hi hj := by
    cases i <;> cases j <;> simp_all [nodes, twoLists, twoSeqs] <;> omega

/-- The first two elements of one list go to the end of the other one. -/
theorem list_refines_sequence_splice :
    ∃ rounds, ∀ fuel, rounds < fuel → ∃ l', (ListOp.splice 3 10 12).run twoLists fuel twoLinks =
      some (none, l') ∧ Refines twoLists twoSeqs
        (Function.update (Function.update twoSeqs false [12]) true [20, 10, 11]) [false, true]
        twoLinks l' :=
  list_refines_sequence twoLinks_holds
    (.splice (A := []) (R := [10, 11]) (B := [12]) (C := [20]) (D := []) rfl rfl rfl rfl rfl)

end Refinement

end Pintos
