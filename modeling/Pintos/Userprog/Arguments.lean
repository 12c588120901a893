import Pintos.Lib.Words
import Pintos.Threads.Palloc

/-!
# The arguments on the first stack page (`parse_push` in `userprog/process.c`)

`strtokR` is `strtok_r` of `lib/string.c` with the delimiter `" "`, on the characters up to the
terminator. `parsePush` pushes the words downward in a first pass. In a second one, `walk`, it goes
up again over the bytes it has stored and pushes a pointer behind each terminator that it meets, the
first of which is the zero byte below the last word.

A store outside the page below `PHYS_BASE` is `none`. `parsePush_stack`: for a command line that
`load` accepts there is none, and the stack is as `main (argc, argv)` expects it.
-/

namespace Pintos

open Lib List Mem

/-! ## `strtok_r` -/

/-- `' '`. -/
def space : UInt8 := 32

/-- The first loop of `strtok_r`: the number of delimiters, and what stands behind them. -/
def skipDelimiters : List UInt8 → Nat × List UInt8
  | [] => (0, [])
  | c :: s =>
    if c = space then
      let r := skipDelimiters s
      (r.1 + 1, r.2)
    else (0, c :: s)

/-- The second loop of `strtok_r`: the token, and what stands behind the delimiter that has become a
terminator. -/
def scanToken : List UInt8 → List UInt8 × List UInt8
  | [] => ([], [])
  | c :: s =>
    if c = space then ([], s)
    else
      let r := scanToken s
      (c :: r.1, r.2)

/-- What `strtok_r` finds: the token stands `skipped` characters behind the start, and `*save_ptr`
points to `rest`. -/
structure Token where
  skipped : Nat
  chars : List UInt8
  rest : List UInt8
  deriving DecidableEq, Repr

/-- `strtok_r (s, " ", &save_ptr)`; `none` is `NULL`. -/
def strtokR (s : List UInt8) : Option Token :=
  match skipDelimiters s with
  | (_, []) => none
  | (n, c :: cs) =>
    let r := scanToken (c :: cs)
    some ⟨n, r.1, r.2⟩

/-- The words of a command line. -/
def cmdWords (s : List UInt8) : List (List UInt8) := words (· == space) s

theorem skipDelimiters_eq (s : List UInt8) :
    skipDelimiters s = ((s.takeWhile (· == space)).length, s.dropWhile (· == space)) := by
  induction s with
  | nil => rfl
  | cons c s ih =>
    rw [skipDelimiters, ih, takeWhile_cons, dropWhile_cons]
    by_cases hc : c = space <;> simp [hc]

theorem scanToken_eq (s : List UInt8) :
    scanToken s = (s.takeWhile (! · == space), (s.dropWhile (! · == space)).tail) := by
  induction s with
  | nil => rfl
  | cons c s ih =>
    rw [scanToken, ih, takeWhile_cons, dropWhile_cons]
    by_cases hc : c = space <;> simp [hc]

theorem strtokR_eq (s : List UInt8) : strtokR s = (nextWord (· == space) s).map fun next =>
    ⟨(s.takeWhile (· == space)).length, next.1, next.2.tail⟩ := by
  rw [strtokR, skipDelimiters_eq, nextWord]
  cases s.dropWhile (· == space) with
  | nil => rfl
  | cons c cs =>
    simp only [scanToken_eq]
    rfl

theorem takeWhile_space (s : List UInt8) :
    s.takeWhile (· == space) = List.replicate (s.takeWhile (· == space)).length space :=
  eq_replicate_of_mem fun c hc => by simpa using mem_takeWhile_imp hc

theorem strtokR_some {s : List UInt8} {tok : Token} (h : strtokR s = some tok) :
    tok.chars ≠ [] ∧ (∀ c ∈ tok.chars, c ≠ space) ∧
      ((s = List.replicate tok.skipped space ++ tok.chars ∧ tok.rest = []) ∨
        s = List.replicate tok.skipped space ++ (tok.chars ++ space :: tok.rest)) := by
  rw [strtokR_eq] at h
  obtain ⟨⟨w, r⟩, hnext, rfl⟩ := Option.map_eq_some_iff.mp h
  obtain ⟨hdrop, hne, hfree, hend⟩ := nextWord_some hnext
  refine ⟨hne, fun c hc => ne_of_beq_false (hfree c hc), ?_⟩
  have hs : s = List.replicate (s.takeWhile (· == space)).length space ++ (w ++ r) := by
    rw [← takeWhile_space, ← hdrop, takeWhile_append_dropWhile]
  rcases hend with rfl | ⟨x, t, rfl, hx⟩
  · rw [append_nil] at hs
    exact .inl ⟨hs, rfl⟩
  · cases eq_of_beq hx
    exact .inr hs

theorem strtokR_none {s : List UInt8} (h : strtokR s = none) : ∃ n, s = List.replicate n space := by
  rw [strtokR_eq, Option.map_eq_none_iff] at h
  have hs := takeWhile_append_dropWhile (p := (· == space)) (l := s)
  rw [nextWord_none h, append_nil, takeWhile_space] at hs
  exact ⟨_, hs.symm⟩

theorem strtokR_rest_lt {s : List UInt8} {tok : Token} (h : strtokR s = some tok) :
    tok.rest.length < s.length := by
  obtain ⟨hne, -, ⟨hs, hrest⟩ | hs⟩ := strtokR_some h
  · have hpos := length_pos_iff.mpr hne
    rw [hs, hrest, length_append, length_nil]
    omega
  · rw [hs]
    simp only [length_append, length_cons]
    omega

theorem cmdWords_of_strtokR (s : List UInt8) :
    cmdWords s = match strtokR s with
      | none => []
      | some tok => tok.chars :: cmdWords tok.rest := by
  rw [cmdWords, words_nextWord, strtokR_eq]
  cases nextWord (· == space) s with
  | none => rfl
  | some next => rfl

/-! ## `parse_push` -/

/-- `MAX_CMD_LEN`. -/
def maxCmdLen : Nat := 128

/-- The memory `m` after a store to the `n` bytes at `a`, which must lie in the page below
`PHYS_BASE`. -/
def onStackPage (a n : Nat) (m : Mem) : Option Mem :=
  if physBase - 4096 ≤ a ∧ a + n ≤ physBase then some m else none

/-- `*p = n` for an `int *` into the stack page. -/
def storeWord (m : Mem) (p n : Nat) : Option Mem := onStackPage p 4 (m.setWord p n)

/-- `strlcpy` to the stack page. -/
def storeString (m : Mem) (dst : Nat) (src : List UInt8) (size : Nat) : Option Mem :=
  let n := min src.length (size - 1)
  onStackPage dst (n + 1) (m.write dst (n + 1) fun i => (src.take n).getD i 0)

/-- The variables of the first loop of `parse_push`. -/
structure Pushing where
  myEsp : Nat
  mem : Mem
  argc : Nat
  fileName : Option Nat

/-- The body of the first loop. -/
def pushToken (st : Pushing) (token : List UInt8) : Option Pushing := do
  let len := min token.length maxCmdLen
  let myEsp := st.myEsp - (len + 1)
  let mem ← storeString st.mem myEsp token (len + 1)
  some ⟨myEsp, mem, st.argc + 1, if st.argc = 0 then some myEsp else st.fileName⟩

/-- The first loop of `parse_push`, from `*save_ptr` on. -/
def pushTokens (s : List UInt8) (st : Pushing) : Option Pushing :=
  match _h : strtokR s with
  | none => some st
  | some tok => (pushToken st tok.chars).bind (pushTokens tok.rest)
termination_by s.length
decreasing_by exact strtokR_rest_lt _h

/-- The second loop of `parse_push`: `esp_int` and the memory at its end. -/
def walk (savePtr espInt : Nat) (m : Mem) : Option (Nat × Mem) :=
  if savePtr < physBase - 1 then
    if m savePtr = 0 then
      (storeWord m (espInt - 4) (savePtr + 1)).bind (walk (savePtr + 2) (espInt - 4))
    else walk (savePtr + 1) espInt m
  else some (espInt, m)
termination_by physBase - 1 - savePtr

/-- `parse_push`, the page for the copy of the command line being there: `file_name`, `*esp` and the
memory. -/
def parsePush (cmdline : List UInt8) (esp : Nat) (m : Mem) : Option (Option Nat × Nat × Mem) := do
  let st ← pushTokens (cmdline.take maxCmdLen) ⟨esp, m, 0, none⟩
  let (espInt, m) ← walk (st.myEsp - 1) (st.myEsp - st.myEsp % 4 - 4) st.mem
  let m ← storeWord m (espInt - 4) espInt
  let m ← storeWord m (espInt - 8) st.argc
  some (st.fileName, espInt - 12, m)

/-! ## The strings -/

/-- Words with their terminators, one behind the other. -/
def image (ws : List (List UInt8)) : List UInt8 := ws.flatMap fun w => w ++ [0]

theorem image_cons (w : List UInt8) (ws : List (List UInt8)) :
    image (w :: ws) = w ++ [0] ++ image ws := flatMap_cons

theorem length_image (ws : List (List UInt8)) : (image ws).length = room ws := by
  induction ws with
  | nil => rfl
  | cons w ws ih =>
    rw [image_cons, room_cons, length_append, length_append, ih]
    rfl

theorem pushTokens_eq (s : List UInt8) (st : Pushing) :
    pushTokens s st = (cmdWords s).foldlM pushToken st := by
  induction hn : s.length using Nat.strong_induction_on generalizing s st with
  | _ n ih =>
    rw [pushTokens, cmdWords_of_strtokR]
    split
    · next htok =>
      simp only [htok]
      rfl
    · next tok htok =>
      simp only [htok, foldlM_cons]
      refine congrArg _ (funext fun st' => ?_)
      exact ih _ (hn ▸ strtokR_rest_lt htok) _ _ rfl

theorem pushToken_ok {st : Pushing} {w : List UInt8} (hlen : w.length ≤ maxCmdLen)
    (hlo : physBase - 4096 + (w.length + 1) ≤ st.myEsp) (hhi : st.myEsp ≤ physBase) :
    ∃ st', pushToken st w = some st' ∧ st'.myEsp = st.myEsp - (w.length + 1) ∧
      st'.argc = st.argc + 1 ∧ st'.fileName.isSome = (st.argc == 0 || st.fileName.isSome) ∧
      st'.mem.Holds st'.myEsp (w ++ [0]) ∧
      ∀ x, x < st'.myEsp ∨ st.myEsp ≤ x → st'.mem x = st.mem x := by
  have hstore : storeString st.mem (st.myEsp - (w.length + 1)) w (w.length + 1) =
      some (st.mem.write (st.myEsp - (w.length + 1)) (w.length + 1) fun i => w.getD i 0) := by
    unfold storeString onStackPage
    simp only [Nat.add_sub_cancel, Nat.min_self, take_length]
    exact if_pos (by omega)
  refine ⟨_, by simp only [pushToken, Nat.min_eq_left hlen, hstore]; rfl, rfl, rfl, ?_, ?_, ?_⟩
  · show (if st.argc = 0 then some (st.myEsp - (w.length + 1)) else st.fileName).isSome = _
    by_cases h0 : st.argc = 0
    · rw [if_pos h0, h0]
      rfl
    · rw [if_neg h0, beq_eq_false_iff_ne.mpr h0]
      rfl
  · exact holds_write fun _ _ => rfl
  · intro x hx
    have hx : x < st.myEsp - (w.length + 1) ∨ st.myEsp ≤ x := hx
    show write st.mem (st.myEsp - (w.length + 1)) (w.length + 1) (fun i => w.getD i 0) x =
      st.mem x
    rw [write_out (by omega)]

theorem pushAll_ok {ws : List (List UInt8)} (hlen : ∀ w ∈ ws, w.length ≤ maxCmdLen) {st : Pushing}
    (hlo : physBase - 4096 + room ws ≤ st.myEsp) (hhi : st.myEsp ≤ physBase) :
    ∃ st', ws.foldlM pushToken st = some st' ∧ st'.myEsp = st.myEsp - room ws ∧
      st'.argc = st.argc + ws.length ∧
      (ws ≠ [] → st.argc = 0 ∨ st.fileName.isSome = true → st'.fileName.isSome = true) ∧
      st'.mem.Holds st'.myEsp (image ws.reverse) ∧
      ∀ x, x < st'.myEsp ∨ st.myEsp ≤ x → st'.mem x = st.mem x := by
  induction ws generalizing st with
  | nil => exact ⟨st, rfl, rfl, rfl, fun h => absurd rfl h, trivial, fun _ _ => rfl⟩
  | cons w ws ih =>
    rw [room_cons] at hlo
    obtain ⟨st₁, hpush, hesp₁, hargc₁, hname₁, hholds₁, hkeep₁⟩ :=
      @pushToken_ok st w (hlen w mem_cons_self) (by omega) hhi
    obtain ⟨st', hrest, hesp, hargc, hname, hholds, hkeep⟩ :=
      @ih (fun v hv => hlen v (mem_cons_of_mem _ hv)) st₁ (by omega) (by omega)
    refine ⟨st', ?_, ?_, ?_, ?_, ?_, ?_⟩
    · rw [foldlM_cons, hpush]
      exact hrest
    · rw [hesp, hesp₁, room_cons]
      omega
    · rw [hargc, hargc₁, length_cons]
      omega
    · intro _ hfirst
      have hsome : st₁.fileName.isSome = true := by
        rw [hname₁, Bool.or_eq_true, beq_iff_eq]
        exact hfirst
      cases ws with
      | nil =>
        cases hrest
        exact hsome
      | cons v ws => exact hname (cons_ne_nil _ _) (.inr hsome)
    · have himage : image (w :: ws).reverse = image ws.reverse ++ (w ++ [0]) := by
        rw [reverse_cons, image, flatMap_append]
        exact congrArg _ (append_nil _)
      have hend : st'.myEsp + (image ws.reverse).length = st₁.myEsp := by
        rw [length_image, room_reverse, hesp]
        omega
      rw [himage, holds_append, hend]
      exact ⟨hholds, hholds₁.congr fun x hx _ => hkeep x (.inr hx)⟩
    · intro x hx
      rw [hkeep x (by omega), hkeep₁ x (by omega)]

/-! ## The vector -/

/-- The strings `ws` stand at `ptr 0`, `ptr 1`, … one above the other, from `lo` to `PHYS_BASE`. -/
structure Pointed (ws : List (List UInt8)) (lo : Nat) (m : Mem) (ptr : Nat → Nat) : Prop where
  string : ∀ j (h : j < ws.length), m.Holds (ptr j) (ws[j] ++ [0])
  low : ∀ j < ws.length, lo ≤ ptr j
  high : ∀ j (h : j < ws.length), ptr j + ws[j].length + 1 ≤ physBase
  apart : ∀ j k (h : j < k) (hk : k < ws.length), ptr j + ws[j].length + 1 ≤ ptr k

theorem Pointed.cons {ws : List (List UInt8)} {w : List UInt8} {lo : Nat} {m : Mem}
    {ptr : Nat → Nat} (h : Pointed ws (lo + w.length + 1) m ptr) (hstring : m.Holds lo (w ++ [0]))
    (hhigh : lo + w.length + 1 ≤ physBase) :
    Pointed (w :: ws) lo m (fun j => j.casesOn lo ptr) := by
  refine ⟨?_, ?_, ?_, ?_⟩
  · intro j hj
    cases j with
    | zero => exact hstring
    | succ j => exact h.string j (Nat.lt_of_succ_lt_succ hj)
  · intro j hj
    cases j with
    | zero => exact Nat.le_refl lo
    | succ j =>
      have hlow := h.low j (Nat.lt_of_succ_lt_succ hj)
      show lo ≤ ptr j
      omega
  · intro j hj
    cases j with
    | zero => exact hhigh
    | succ j => exact h.high j (Nat.lt_of_succ_lt_succ hj)
  · intro j k hjk hk
    cases k with
    | zero => exact absurd hjk (Nat.not_lt_zero _)
    | succ k =>
      cases j with
      | zero => exact h.low k (Nat.lt_of_succ_lt_succ hk)
      | succ j => exact h.apart j k (Nat.lt_of_succ_lt_succ hjk) (Nat.lt_of_succ_lt_succ hk)

theorem Pointed.congr {ws : List (List UInt8)} {lo : Nat} {m m' : Mem} {ptr : Nat → Nat}
    (h : Pointed ws lo m ptr) (hm : ∀ x, lo ≤ x → m' x = m x) : Pointed ws lo m' ptr :=
  { h with
    string := fun j hj =>
      (h.string j hj).congr fun x hx _ => hm x (le_trans (h.low j hj) hx) }

theorem storeWord_ok {m : Mem} {p n : Nat} (hlo : physBase - 4096 ≤ p) (hhi : p + 4 ≤ physBase) :
    storeWord m p n = some (m.setWord p n) := if_pos ⟨hlo, hhi⟩

theorem walk_chars {cs : List UInt8} {q espInt : Nat} {m : Mem} (hholds : m.Holds q cs)
    (hne : 0 ∉ cs) (hend : q + cs.length ≤ physBase - 1) :
    walk q espInt m = walk (q + cs.length) espInt m := by
  induction cs generalizing q with
  | nil => rfl
  | cons b cs ih =>
    rw [length_cons] at hend
    have hb : m q ≠ 0 := by
      rw [hholds.1]
      intro h0
      exact hne (h0 ▸ mem_cons_self)
    have hstep : walk q espInt m = walk (q + 1) espInt m := by
      rw [walk, if_pos (by omega), if_neg hb]
    have hnext : q + (b :: cs).length = q + 1 + cs.length := by
      rw [length_cons]
      omega
    rw [hstep, hnext]
    exact ih hholds.2 (fun h => hne (mem_cons_of_mem _ h)) (by omega)

/-- The second loop, from a zero byte below the strings on, pushes a pointer to each of them. -/
theorem walk_words {ws : List (List UInt8)} (hws : ∀ w ∈ ws, w ≠ [] ∧ 0 ∉ w) {p espInt : Nat}
    {m : Mem} (hp : m p = 0) (hholds : m.Holds (p + 1) (image ws))
    (hend : p + 1 + room ws = physBase) (hesp : espInt ≤ p)
    (hroom : physBase - 4096 + 4 * ws.length ≤ espInt) :
    ∃ m' ptr, walk p espInt m = some (espInt - 4 * ws.length, m') ∧
      (∀ x, x < espInt - 4 * ws.length ∨ espInt ≤ x → m' x = m x) ∧
      (∀ j < ws.length, m'.word (espInt - 4 * (j + 1)) = ptr j) ∧ Pointed ws (p + 1) m ptr := by
  induction ws generalizing p espInt m with
  | nil =>
    rw [room_nil] at hend
    refine ⟨m, fun _ => 0, ?_, fun _ _ => rfl, nofun, ⟨nofun, nofun, nofun, nofun⟩⟩
    rw [walk, if_neg (by omega)]
    rfl
  | cons w ws ih =>
    obtain ⟨hne, hnul⟩ := hws w mem_cons_self
    obtain ⟨b, cs, rfl⟩ := exists_cons_of_ne_nil hne
    have hbase := physBase_eq
    have hlen : (b :: cs).length = cs.length + 1 := length_cons
    rw [room_cons, hlen] at hend
    rw [length_cons] at hroom
    -- the string, its terminator, and the strings behind it
    rw [image_cons] at hholds
    obtain ⟨hstring, hrest⟩ := holds_append.mp hholds
    rw [length_append, hlen, length_singleton] at hrest
    obtain ⟨hchars, hzero, -⟩ := holds_append.mp hstring
    rw [hlen] at hzero
    -- the pointer is stored below all of them
    obtain ⟨m₁, hm₁⟩ : ∃ m₁, m₁ = m.setWord (espInt - 4) (p + 1) := ⟨_, rfl⟩
    have habove : ∀ x, espInt ≤ x → m₁ x = m x := by
      intro x hx
      rw [hm₁, setWord_out (by omega)]
    have hstep : walk p espInt m = walk (p + 1 + (cs.length + 1)) (espInt - 4) m₁ := by
      rw [walk, if_pos (by omega), if_pos hp, storeWord_ok (by omega) (by omega), ← hm₁,
        Option.bind_some, @walk_chars cs _ _ _ ?_ (fun h => hnul (mem_cons_of_mem _ h))
          (by omega)]
      · congr 1
        omega
      · exact hchars.2.congr fun x hx _ => habove x (by omega)
    obtain ⟨m', ptr, hwalk, hkeep, hwords, hptr⟩ := @ih
      (fun v hv => hws v (mem_cons_of_mem _ hv)) (p + 1 + (cs.length + 1)) (espInt - 4) m₁
      (by rw [habove _ (by omega), hzero]) (hrest.congr fun x hx _ => habove x (by omega))
      (by omega) (by omega) (by omega)
    refine ⟨m', fun j => j.casesOn (p + 1) ptr, ?_, ?_, ?_, ?_⟩
    · rw [hstep, hwalk, length_cons]
      congr 2
      omega
    · intro x hx
      rw [length_cons] at hx
      rw [hkeep x (by omega), hm₁, setWord_out (by omega)]
    · intro j hj
      cases j with
      | zero =>
        have hword : m'.word (espInt - 4) = m₁.word (espInt - 4) :=
          word_congr fun i _ => hkeep _ (.inr (by omega))
        show m'.word (espInt - 4) = p + 1
        rw [hword, hm₁, word_setWord]
        omega
      | succ j =>
        rw [length_cons] at hj
        have haddr : espInt - 4 * (j + 1 + 1) = espInt - 4 - 4 * (j + 1) := by omega
        rw [haddr]
        exact hwords j (by omega)
    · have hlow : p + 1 + (cs.length + 1) + 1 = p + 1 + (b :: cs).length + 1 := by rw [hlen]
      rw [hlow] at hptr
      exact (hptr.congr fun x hx => (habove x (by omega)).symm).cons hstring (by omega)

/-! ## The whole stack -/

/-- The stack at the start of a program with the arguments `ws`, which stand at `ptr 0`, … -/
structure InitialStack (ws : List (List UInt8)) (m : Mem) (esp : Nat) (ptr : Nat → Nat) : Prop where
  aligned : esp % 4 = 0
  inPage : physBase - 4096 ≤ esp
  argc : m.word (esp + 4) = ws.length
  argv : m.word (esp + 8) = esp + 12
  arg : ∀ i (h : i < ws.length),
    m.word (esp + 12 + 4 * i) = ptr i ∧ m.Holds (ptr i) (ws[i] ++ [0])
  null : m.word (esp + 12 + 4 * ws.length) = 0
  above : ∀ i (h : i < ws.length),
    esp + 12 + 4 * ws.length + 4 ≤ ptr i ∧ ptr i + ws[i].length + 1 ≤ physBase
  apart : ∀ i k (_ : i < k) (hk : k < ws.length), ptr k + ws[k].length + 1 ≤ ptr i

theorem cmdWords_ne_nil {s : List UInt8} (h : ∃ c ∈ s, c ≠ space) : cmdWords s ≠ [] := by
  rw [cmdWords_of_strtokR]
  cases htok : strtokR s with
  | none =>
    obtain ⟨n, rfl⟩ := strtokR_none htok
    obtain ⟨c, hc, hne⟩ := h
    exact absurd (eq_of_mem_replicate hc) hne
  | some tok => exact cons_ne_nil _ _

theorem initialStack_of_vector {ws : List (List UInt8)} {base lo : Nat} {m₁ m₂ : Mem}
    {ptr : Nat → Nat} (hal : base % 4 = 0) (hlo : physBase - 4096 + 4 * ws.length + 12 ≤ base)
    (hbase : base + 4 ≤ lo) (hhi : lo ≤ physBase) (hkeep : ∀ x, base ≤ x → m₂ x = m₁ x)
    (hnull : ∀ x, base ≤ x → x < base + 4 → m₁ x = 0)
    (hwords : ∀ j < ws.length, m₂.word (base - 4 * (j + 1)) = ptr j)
    (hptr : Pointed ws.reverse lo m₁ ptr) :
    InitialStack ws ((m₂.setWord (base - 4 * ws.length - 4) (base - 4 * ws.length)).setWord
        (base - 4 * ws.length - 8) ws.length) (base - 4 * ws.length - 12)
      (fun i => ptr (ws.length - 1 - i)) := by
  have hphys : physBase = 3221225472 := by decide
  obtain ⟨m₃, hm₃⟩ : ∃ m₃, m₃ = (m₂.setWord (base - 4 * ws.length - 4)
    (base - 4 * ws.length)).setWord (base - 4 * ws.length - 8) ws.length := ⟨_, rfl⟩
  rw [← hm₃]
  have hvector : ∀ x, base - 4 * ws.length ≤ x → m₃ x = m₂ x := by
    intro x hx
    rw [hm₃, setWord_out (by omega), setWord_out (by omega)]
  -- the pointers stand in the opposite order
  have hrev : ∀ i (h : i < ws.length), ∃ h' : ws.length - 1 - i < ws.reverse.length,
      ws.reverse[ws.length - 1 - i] = ws[i] := by
    intro i h
    refine ⟨by rw [length_reverse]; omega, ?_⟩
    rw [getElem_reverse]
    congr 1
    omega
  refine ⟨by omega, by omega, ?_, ?_, ?_, ?_, ?_, ?_⟩
  · have haddr : base - 4 * ws.length - 12 + 4 = base - 4 * ws.length - 8 := by omega
    rw [haddr, hm₃, word_setWord]
    omega
  · have haddr : base - 4 * ws.length - 12 + 8 = base - 4 * ws.length - 4 := by omega
    have hword : m₃.word (base - 4 * ws.length - 4) =
        (m₂.setWord (base - 4 * ws.length - 4) (base - 4 * ws.length)).word
          (base - 4 * ws.length - 4) := by
      refine word_congr fun i hi => ?_
      rw [hm₃, setWord_out (by omega)]
    rw [haddr, hword, word_setWord]
    omega
  · intro i hi
    obtain ⟨hj, hget⟩ := hrev i hi
    have haddr : base - 4 * ws.length - 12 + 12 + 4 * i =
        base - 4 * (ws.length - 1 - i + 1) := by omega
    have hlow := hptr.low _ hj
    refine ⟨?_, ?_⟩
    · rw [haddr, ← hwords _ (by omega)]
      exact word_congr fun k _ => hvector _ (by omega)
    · rw [← hget]
      refine (hptr.string _ hj).congr fun x hx _ => ?_
      rw [hvector x (by omega), hkeep x (by omega)]
  · have hword : m₃.word (base - 4 * ws.length - 12 + 12 + 4 * ws.length) =
        word (fun _ => 0) 0 := by
      refine word_congr fun i hi => ?_
      rw [hvector _ (by omega), hkeep _ (by omega), hnull _ (by omega) (by omega)]
    exact hword
  · intro i hi
    obtain ⟨hj, hget⟩ := hrev i hi
    have hlow := hptr.low _ hj
    have hhigh := hptr.high _ hj
    rw [hget] at hhigh
    exact ⟨by omega, hhigh⟩
  · intro i k hik hk
    obtain ⟨hj, hget⟩ := hrev i (by omega)
    obtain ⟨hj', hget'⟩ := hrev k hk
    have hapart := hptr.apart (ws.length - 1 - k) (ws.length - 1 - i) (by omega) hj
    rw [hget'] at hapart
    exact hapart

/-- **The initial stack.** For a command line of at most `MAX_CMD_LEN` characters with at least one
word, and a zeroed page below `PHYS_BASE`: all stores of `parse_push` fall in that page, and they
make the stack of a program that is called with the words of the command line. -/
theorem parsePush_stack {cmdline : List UInt8} (hnul : 0 ∉ cmdline)
    (hlen : cmdline.length ≤ maxCmdLen) (hword : ∃ c ∈ cmdline, c ≠ space) {m : Mem}
    (hzero : ∀ x, physBase - 4096 ≤ x → x < physBase → m x = 0) :
    ∃ fileName esp m' ptr, parsePush cmdline physBase m = some (some fileName, esp, m') ∧
      InitialStack (cmdWords cmdline) m' esp ptr ∧
      ∀ x, x < physBase - 4096 ∨ physBase ≤ x → m' x = m x := by
  have hbase := physBase_eq
  have hmax : maxCmdLen = 128 := rfl
  have hroom : room (cmdWords cmdline) ≤ cmdline.length + 1 := room_words _
  have hmem : ∀ w ∈ cmdWords cmdline, w ≠ [] ∧ 0 ∉ w := fun w hw =>
    ⟨(mem_words hw).1, fun h0 => hnul ((mem_words hw).2 0 h0)⟩
  have hcount : 2 * (cmdWords cmdline).length ≤ room (cmdWords cmdline) :=
    two_mul_length_le_room fun w hw => (hmem w hw).1
  obtain ⟨ws, hws⟩ : ∃ ws, ws = cmdWords cmdline := ⟨_, rfl⟩
  rw [← hws] at hroom hmem hcount ⊢
  -- the first loop
  obtain ⟨st, hpush, hesp, hargc, hname, hholds, hkeep⟩ := @pushAll_ok ws
    (fun w hw => by
      have hle := le_sum_of_mem (mem_map_of_mem (f := fun w => w.length + 1) hw)
      unfold room at hroom
      omega) ⟨physBase, m, 0, none⟩ (by show _ ≤ physBase; omega) (Nat.le_refl _)
  simp only at hesp hargc hkeep
  rw [Nat.zero_add] at hargc
  obtain ⟨f, hf⟩ := Option.isSome_iff_exists.mp
    (hname (hws ▸ cmdWords_ne_nil hword) (.inl rfl))
  -- the second loop
  have hbelow : st.mem (st.myEsp - 1) = 0 := by
    rw [hkeep _ (by omega), hzero _ (by omega) (by omega)]
  have hlenr : ws.reverse.length = ws.length := length_reverse
  obtain ⟨m₂, ptr, hwalk, hkeep₂, hwords, hptr⟩ := @walk_words ws.reverse
    (fun w hw => hmem w (mem_reverse.mp hw)) (st.myEsp - 1) (st.myEsp - st.myEsp % 4 - 4) st.mem
    hbelow (by rw [Nat.sub_add_cancel (by omega)]; exact hholds) (by rw [room_reverse]; omega)
    (by omega) (by omega)
  rw [hlenr] at hwalk hkeep₂ hwords
  obtain ⟨base, hbase'⟩ : ∃ base, base = st.myEsp - st.myEsp % 4 - 4 := ⟨_, rfl⟩
  rw [← hbase'] at hwalk hkeep₂ hwords
  -- `argv`, `argc` and the return address
  have hstores : parsePush cmdline physBase m = some (some f, base - 4 * ws.length - 12,
      (m₂.setWord (base - 4 * ws.length - 4) (base - 4 * ws.length)).setWord
        (base - 4 * ws.length - 8) ws.length) := by
    unfold parsePush
    rw [take_of_length_le hlen, pushTokens_eq, ← hws, hpush]
    show ((walk (st.myEsp - 1) (st.myEsp - st.myEsp % 4 - 4) st.mem).bind fun r => _) = _
    rw [← hbase', hwalk]
    show ((storeWord m₂ (base - 4 * ws.length - 4) (base - 4 * ws.length)).bind fun r => _) = _
    rw [storeWord_ok (by omega) (by omega)]
    show ((storeWord _ (base - 4 * ws.length - 8) st.argc).bind fun r => _) = _
    rw [storeWord_ok (by omega) (by omega), hargc, hf]
    rfl
  refine ⟨f, _, _, fun i => ptr (ws.length - 1 - i), hstores, ?_, ?_⟩
  · refine initialStack_of_vector (by omega) (by omega) ?_ ?_ (fun x hx => hkeep₂ x (.inr hx)) ?_
      hwords hptr
    · omega
    · omega
    · intro x hlo hhi
      rw [hkeep x (by omega), hzero x (by omega) (by omega)]
  · intro x hx
    rw [setWord_out (by omega), setWord_out (by omega), hkeep₂ x (by omega),
      hkeep x (by omega)]

/-- `ls -l` has two arguments, the first of which is `ls`. -/
theorem parsePush_stack_ls : ∃ fileName esp m' ptr,
    parsePush [108, 115, 32, 45, 108] physBase (fun _ => 0) = some (some fileName, esp, m') ∧
      m'.word (esp + 4) = 2 ∧ m'.word (esp + 12) = ptr ∧ m'.Holds ptr [108, 115, 0] := by
  obtain ⟨f, esp, m', ptr, hpush, hstack, -⟩ := @parsePush_stack [108, 115, 32, 45, 108]
    (by decide) (by decide) ⟨108, by decide, by decide⟩ (fun _ => 0) (fun _ _ _ => rfl)
  have hargs : cmdWords [108, 115, 32, 45, 108] = [[108, 115], [45, 108]] := by decide +kernel
  rw [hargs] at hstack
  obtain ⟨harg, hstring⟩ := hstack.arg 0 (by decide)
  exact ⟨f, esp, m', ptr 0, hpush, hstack.argc, harg, hstring⟩

end Pintos
