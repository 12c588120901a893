import Pintos.Lib.Bytes
import Pintos.Lib.Words

/-!
# Copying and splitting (`lib/string.c`)

* `memmove_copies_iff`: `memmove` copies under any overlap. Upward it moves the pointer that it
  returns, so that `dst` comes back only from the other direction.
* `Strtok.strtokR_step`, `Strtok.strtokAll_answers`: one call of `strtok_r`, and any number of them.
* `Strtok.strtok_r_splits`: the calls find the next run of characters outside their set each time.
-/

namespace Pintos

open Lib Function List Option Mem

/-! ## `memmove` -/

/-- `while (size-- > 0) *dst++ = *src++`: the memory, and `dst`. -/
def moveUp : Nat → Mem → Nat → Nat → Mem × Nat
  | 0, m, dst, _ => (m, dst)
  | size + 1, m, dst, src =>
    moveUp size (update m dst (m src)) ((dst + 1) % 2 ^ 32) ((src + 1) % 2 ^ 32)

/-- `--p`. -/
def decrement (p : Nat) : Nat := if p = 0 then 4294967295 else p - 1

/-- `while (size-- > 0) *--dst = *--src`. -/
def moveDown : Nat → Mem → Nat → Nat → Mem × Nat
  | 0, m, dst, _ => (m, dst)
  | size + 1, m, dst, src =>
    moveDown size (update m (decrement dst) (m (decrement src))) (decrement dst) (decrement src)

/-- `memmove`: the memory and what is returned, or `none` where an assertion fails. -/
def memmove (m : Mem) (dst src size : Nat) : Option (Mem × Nat) :=
  if (dst ≠ 0 ∨ size = 0) ∧ (src ≠ 0 ∨ size = 0) then
    if dst < src then some (moveUp size m dst src)
    else some (moveDown size m ((dst + size) % 2 ^ 32) ((src + size) % 2 ^ 32))
  else none

section Move

variable {m : Mem} {dst src size : Nat}

/-- The bytes that are still to be read lie above those that have been written. -/
theorem moveUp_eq (hdst : dst + size ≤ 2 ^ 32) (hsrc : src + size ≤ 2 ^ 32) (hlt : dst < src) :
    moveUp size m (dst % 2 ^ 32) (src % 2 ^ 32) =
      (m.write dst size fun i => m (src + i), (dst + size) % 2 ^ 32) := by
  induction size generalizing m dst src with
  | zero => rw [write_zero]; rfl
  | succ size ih =>
    have hd : dst % 2 ^ 32 = dst := Nat.mod_eq_of_lt (by omega)
    have hs : src % 2 ^ 32 = src := Nat.mod_eq_of_lt (by omega)
    rw [hd, hs, moveUp, ih (by omega) (by omega) (by omega)]
    refine Prod.ext (funext fun x => ?_) (by simp only; omega)
    simp only [write, update_apply]
    grind

theorem decrement_mod {p : Nat} (h : p < 2 ^ 32) : decrement ((p + 1) % 2 ^ 32) = p := by
  unfold decrement
  split <;> omega

theorem moveDown_eq (hd : dst < 2 ^ 32) (hdst : dst + size ≤ 2 ^ 32) (hle : src ≤ dst) :
    moveDown size m ((dst + size) % 2 ^ 32) ((src + size) % 2 ^ 32) =
      (m.write dst size fun i => m (src + i), dst) := by
  induction size generalizing m with
  | zero => rw [write_zero, Nat.add_zero, Nat.mod_eq_of_lt hd]; rfl
  | succ size ih =>
    have hrest := @ih (update m (dst + size) (m (src + size))) (by omega)
    rw [Nat.mod_eq_of_lt (by omega), Nat.mod_eq_of_lt (by omega)] at hrest
    rw [moveDown, ← Nat.add_assoc, ← Nat.add_assoc, decrement_mod (by omega),
      decrement_mod (by omega)]
    refine hrest.trans (Prod.ext (funext fun x => ?_) rfl)
    simp only [write, update_apply]
    grind

end Move

/-- **`memmove` copies under any overlap.** It returns `dst` unless it has copied upward. -/
theorem memmove_copies_iff (m : Mem) {dst src size : Nat} (hd : dst < 2 ^ 32) (hs : src < 2 ^ 32)
    (hdst : dst + size ≤ 2 ^ 32) (hsrc : src + size ≤ 2 ^ 32) :
    (memmove m dst src size = none ↔ size ≠ 0 ∧ (dst = 0 ∨ src = 0)) ∧
    ∀ m' r, memmove m dst src size = some (m', r) →
      (∀ i < size, m' (dst + i) = m (src + i)) ∧
      (∀ x, x < dst ∨ dst + size ≤ x → m' x = m x) ∧
      (r = dst ↔ src ≤ dst ∨ size = 0) := by
  unfold memmove
  constructor
  · split_ifs <;> simp <;> omega
  · intro m' r h
    obtain ⟨rfl, hr⟩ : m.write dst size (fun i => m (src + i)) = m' ∧
        (r = dst ↔ src ≤ dst ∨ size = 0) := by
      split_ifs at h with hok hlt
      · have hup := @moveUp_eq m dst src size hdst hsrc hlt
        rw [Nat.mod_eq_of_lt hd, Nat.mod_eq_of_lt hs] at hup
        rw [hup] at h
        cases h
        exact ⟨rfl, by omega⟩
      · rw [moveDown_eq hd hdst (by omega)] at h
        cases h
        exact ⟨rfl, by omega⟩
    exact ⟨fun i hi => write_add hi, fun x hx => write_out hx, hr⟩

theorem memmove_copies_down : ∃ m', memmove UInt8.ofNat 8 4 6 = some (m', 8) ∧ m' 8 = 4 := by
  obtain ⟨m', r, h⟩ : ∃ m' r, memmove UInt8.ofNat 8 4 6 = some (m', r) := ⟨_, _, rfl⟩
  obtain ⟨hcopy, -, hr⟩ := (@memmove_copies_iff UInt8.ofNat 8 4 6 (by decide) (by decide)
    (by decide) (by decide)).2 m' r h
  obtain rfl := hr.mpr (.inl (by decide))
  exact ⟨m', h, hcopy 0 (by decide)⟩

/-- A byte is moved from 8 to 4, and 5 is returned. -/
theorem memmove_returns_end : ∃ m', memmove (fun _ => 0) 4 8 1 = some (m', 5) := ⟨_, rfl⟩

/-! ## `strtok_r` -/

/-- `strchr (string, c) != NULL`, for the characters of a string before its terminator. -/
def strchr : List UInt8 → UInt8 → Bool
  | [], c => c == 0
  | d :: string, c => if d = c then true else if d = 0 then false else strchr string c

namespace Strtok

/-- A loop that goes on until `stop`; `left` characters can be read, the last of which is the
terminator. -/
def scan (m : Mem) (stop : UInt8 → Bool) : Nat → Nat → Option Nat
  | 0, _ => none
  | left + 1, s => if stop (m s) then some s else scan m stop left (s + 1)

/-- The first loop of `strtok_r`. At the terminator the function returns. -/
def skipDelimiters (m : Mem) (delimiters : List UInt8) : Nat → Nat → Option Nat :=
  scan m fun c => !strchr delimiters c || c == 0

/-- The second loop. -/
def skipToken (m : Mem) (delimiters : List UInt8) : Nat → Nat → Option Nat :=
  scan m (strchr delimiters)

/-- The memory and `*save_ptr`. -/
structure State where
  mem : Mem
  savePtr : Nat

/-- `strtok_r` on a string with its terminator at `last`; for `s` and for the token `none` is a null
pointer. An assertion that fails and an access behind the terminator give `none`. -/
def strtokR (last : Nat) (st : State) (s : Option Nat) (delimiters : List UInt8) :
    Option (Option Nat × State) :=
  let s := s.getD st.savePtr
  if s = 0 then none
  else (skipDelimiters st.mem delimiters (last + 1 - s) s).bind fun token =>
    if st.mem token = 0 then some (none, ⟨st.mem, token⟩)
    else (skipToken st.mem delimiters (last + 1 - token) token).bind fun s =>
      if st.mem s ≠ 0 then some (some token, ⟨update st.mem s 0, s + 1⟩)
      else some (some token, ⟨st.mem, s⟩)

/-- A call for each of the sets, the first with `s` and the others with a null pointer: what each
returned, with the state that it left. -/
def strtokAll (last : Nat) :
    State → Option Nat → List (List UInt8) → Option (List (Option Nat × State))
  | _, _, [] => some []
  | st, s, delimiters :: sets => (strtokR last st s delimiters).bind fun r =>
      (strtokAll last r.2 none sets).map (r :: ·)

/-! ### What the calls should find -/

/-- Where the search goes on: behind the character that ended the run. -/
def behind (next : Option (List UInt8 × List UInt8)) : List UInt8 := next.elim [] (·.2.tail)

/-- The runs that the calls should find in `t`, each with what follows it. -/
def tokens : List (List UInt8) → List UInt8 → List (Option (List UInt8 × List UInt8))
  | [], _ => []
  | delimiters :: sets, t =>
    nextWord delimiters.contains t :: tokens sets (behind (nextWord delimiters.contains t))

/-- The call returned the run, which is a string now and stands where it stood. -/
def Answers (last : Nat) (r : Option Nat × State) : Option (List UInt8 × List UInt8) → Prop
  | none => r.1 = none
  | some (w, rest) =>
    ∃ p, r.1 = some p ∧ p + w.length + rest.length = last ∧ r.2.mem.Holds p (w ++ [0])

theorem tokens_nil (sets : List (List UInt8)) : tokens sets [] = replicate sets.length none := by
  induction sets with
  | nil => rfl
  | cons ds sets ih => exact congrArg (none :: ·) ih

theorem tokens_ends (sets : List (List UInt8)) (t : List UInt8) :
    ∃ found n, tokens sets t = List.map some found ++ replicate n none := by
  induction sets generalizing t with
  | nil => exact ⟨[], 0, rfl⟩
  | cons ds sets ih =>
    rw [tokens]
    cases nextWord ds.contains t with
    | none => exact ⟨[], sets.length + 1, congrArg (none :: ·) (tokens_nil sets)⟩
    | some next =>
      obtain ⟨found, n, h⟩ := ih (behind (some next))
      exact ⟨next :: found, n, congrArg (some next :: ·) h⟩

theorem tokens_replicate (ds : List UInt8) (n : Nat) (t : List UInt8) :
    (tokens (replicate n ds) t).map (Option.map Prod.fst) =
      ((words ds.contains t).map some ++ replicate n none).take n := by
  induction n generalizing t with
  | zero => rfl
  | succ n ih =>
    rw [replicate_succ, tokens, map_cons, ih, words_nextWord t]
    cases nextWord ds.contains t with
    | none => simp [behind, replicate_succ]
    | some next =>
      simp only [behind, elim_some, Option.map_some, map_cons, cons_append, take_succ_cons,
        take_append, take_replicate]
      grind

/-! ### The calls -/

section

variable {m : Mem} {ds t : List UInt8} {s : Nat}

theorem strchr_eq (h : 0 ∉ ds) (c : UInt8) : strchr ds c = (ds.contains c || c == 0) := by
  induction ds with
  | nil => rfl
  | cons d string ih =>
    rw [mem_cons, not_or] at h
    rw [strchr, if_neg (Ne.symm h.1), ih h.2, contains_cons]
    grind

theorem scan_eq {stop p : UInt8 → Bool} (hstop : stop 0 = true) (hp : ∀ c ∈ t, stop c = !p c)
    (hm : m.Holds s (t ++ [0])) :
    scan m stop (t.length + 1) s = some (s + (t.takeWhile p).length) := by
  induction t generalizing s with
  | nil =>
    have hend : m s = 0 := hm.1
    rw [scan, hend, if_pos hstop]
    rfl
  | cons c t ih =>
    have hfirst : m s = c := hm.1
    have hrest := ih (fun c hc => hp c (mem_cons_of_mem _ hc)) hm.2
    rw [scan, hfirst, hp c mem_cons_self, takeWhile_cons]
    cases p c with
    | true =>
      refine hrest.trans (congrArg some ?_)
      simp only [if_true, length_cons]
      omega
    | false => rfl

theorem skipDelimiters_eq (h : 0 ∉ ds) (ht : 0 ∉ t) (hm : m.Holds s (t ++ [0])) :
    skipDelimiters m ds (t.length + 1) s = some (s + (t.takeWhile ds.contains).length) := by
  refine scan_eq (by simp) (fun c hc => ?_) hm
  have hne : (c == 0) = false := beq_eq_false_iff_ne.mpr fun h => ht (h ▸ hc)
  rw [strchr_eq h, hne, Bool.or_false, Bool.or_false]

theorem skipToken_eq (h : 0 ∉ ds) (ht : 0 ∉ t) (hm : m.Holds s (t ++ [0])) :
    skipToken m ds (t.length + 1) s = some (s + (t.takeWhile (!ds.contains ·)).length) := by
  refine scan_eq (by simp [strchr_eq h]) (fun c hc => ?_) hm
  have hne : (c == 0) = false := beq_eq_false_iff_ne.mpr fun h => ht (h ▸ hc)
  rw [strchr_eq h, hne, Bool.or_false, Bool.not_not]

theorem endToken_step {w r : List UInt8} {token last : Nat} (hnul : 0 ∉ w ++ r)
    (hm : m.Holds token (w ++ (r ++ [0]))) (hlast : token + w.length + r.length = last) :
    ∃ m' savePtr', (if m (token + w.length) ≠ 0
        then some (some token, State.mk (update m (token + w.length) 0) (token + w.length + 1))
        else some (some token, ⟨m, token + w.length⟩)) = some (some token, ⟨m', savePtr'⟩) ∧
      m'.Holds token (w ++ [0]) ∧ token ≤ savePtr' ∧ savePtr' + r.tail.length = last ∧
      m'.Holds savePtr' (r.tail ++ [0]) ∧ ∀ x, x < token ∨ last ≤ x → m' x = m x := by
  rw [holds_append] at hm
  cases r with
  | nil =>
    rw [if_neg (not_not.mpr hm.2.1)]
    exact ⟨_, _, rfl, holds_append.mpr hm, by omega, hlast, hm.2, fun _ _ => rfl⟩
  | cons y r =>
    have hend : m (token + w.length) = y := hm.2.1
    have hy : y ≠ 0 := by
      rintro rfl
      simp at hnul
    rw [length_cons] at hlast
    rw [hend, if_pos hy]
    refine ⟨_, _, rfl, ?_, by omega, ?_, ?_, fun z hz => update_of_ne (by omega) ..⟩
    · refine holds_append.mpr ⟨hm.1.congr fun z _ hz => ?_, update_self .., trivial⟩
      exact update_of_ne (by omega) ..
    · rw [tail_cons]
      omega
    · exact hm.2.2.congr fun z hz _ => update_of_ne (by omega) ..

/-- **One call**, from the place where `t` is left: it finds the next run of `t`, and the next call
goes on behind it. -/
theorem strtokR_step {last savePtr : Nat} {start : Option Nat} (h : 0 ∉ ds) (ht : 0 ∉ t)
    (hm : m.Holds s (t ++ [0])) (hs : s ≠ 0) (hlast : s + t.length = last)
    (hstart : start.getD savePtr = s) :
    ∃ r m' savePtr', strtokR last ⟨m, savePtr⟩ start ds = some (r, ⟨m', savePtr'⟩) ∧
      Answers last (r, ⟨m', savePtr'⟩) (nextWord ds.contains t) ∧ s ≤ savePtr' ∧
      savePtr' + (behind (nextWord ds.contains t)).length = last ∧
      m'.Holds savePtr' (behind (nextWord ds.contains t) ++ [0]) ∧
      ∀ x, x < s ∨ last ≤ x → m' x = m x := by
  have hsplit := takeWhile_append_dropWhile (p := ds.contains) (l := t)
  have hlen := congrArg length hsplit
  have hrest : m.Holds (s + (t.takeWhile ds.contains).length)
      (t.dropWhile ds.contains ++ [0]) := by
    rw [← hsplit, append_assoc, holds_append] at hm
    exact hm.2
  have hleft : last + 1 - s = t.length + 1 := by omega
  simp only [strtokR, hstart, if_neg hs, hleft, skipDelimiters_eq h ht hm, bind_some]
  rw [length_append] at hlen
  obtain ⟨token, htoken⟩ : ∃ token, s + (t.takeWhile ds.contains).length = token := ⟨_, rfl⟩
  rw [htoken] at hrest ⊢
  unfold nextWord
  cases hdrop : t.dropWhile ds.contains with
  | nil =>
    rw [hdrop] at hrest hlen
    obtain rfl : token = last := by simp only [length_nil] at hlen; omega
    rw [if_pos hrest.1]
    exact ⟨_, _, _, rfl, rfl, by omega, rfl, hrest, fun _ _ => rfl⟩
  | cons x u =>
    have hnul : 0 ∉ x :: u := fun hmem => ht ((dropWhile_suffix _).mem (hdrop ▸ hmem))
    rw [hdrop] at hrest hlen
    have hfirst : m token = x := hrest.1
    have hx : x ≠ 0 := fun hx => hnul (hx ▸ mem_cons_self)
    have hleft' : last + 1 - token = (x :: u).length + 1 := by omega
    rw [hfirst, if_neg hx, hleft', skipToken_eq h hnul hrest, bind_some]
    have hword := takeWhile_append_dropWhile (p := (!ds.contains ·)) (l := x :: u)
    simp only
    generalize (x :: u).takeWhile (!ds.contains ·) = w at hword ⊢
    generalize (x :: u).dropWhile (!ds.contains ·) = r at hword ⊢
    rw [← hword, append_assoc] at hrest
    rw [← hword] at hnul hlen
    rw [length_append] at hlen
    obtain ⟨m', savePtr', hcall, hstr, hle, hlast', hm', hframe⟩ :=
      @endToken_step m w r token last hnul hrest (by omega)
    exact ⟨_, m', savePtr', hcall, ⟨token, rfl, by omega, hstr⟩, by omega, hlast', hm',
      fun z hz => hframe z (by omega)⟩

/-- **Any number of calls**, from the place where `t` is left. -/
theorem strtokAll_answers {last savePtr : Nat} {start : Option Nat} {sets : List (List UInt8)}
    (h : ∀ ds ∈ sets, 0 ∉ ds) (ht : 0 ∉ t) (hm : m.Holds s (t ++ [0])) (hs : s ≠ 0)
    (hlast : s + t.length = last) (hstart : start.getD savePtr = s) :
    ∃ rs, strtokAll last ⟨m, savePtr⟩ start sets = some rs ∧
      Forall₂ (Answers last) rs (tokens sets t) ∧
      ∀ r ∈ rs, ∀ x, x < s ∨ last ≤ x → r.2.mem x = m x := by
  induction sets generalizing m s t savePtr start with
  | nil => exact ⟨[], rfl, .nil, nofun⟩
  | cons ds sets ih =>
    obtain ⟨r, m', savePtr', hcall, hanswer, hle, hlast', hm', hframe⟩ :=
      strtokR_step (h ds mem_cons_self) ht hm hs hlast hstart
    have hnul : 0 ∉ behind (nextWord ds.contains t) := by
      cases hnext : nextWord ds.contains t with
      | none => nofun
      | some next =>
        intro hmem
        refine ht ((dropWhile_suffix ds.contains).mem ?_)
        rw [(nextWord_some hnext).1]
        exact mem_append_right _ (mem_of_mem_tail hmem)
    obtain ⟨rs, hcalls, hanswers, hframes⟩ := @ih m' _ _ savePtr' none
      (fun d hd => h d (mem_cons_of_mem _ hd)) hnul hm' (by omega) hlast' rfl
    refine ⟨_ :: rs, ?_, .cons hanswer hanswers, fun r' hr' x hx => ?_⟩
    · rw [strtokAll, hcall, bind_some, hcalls]
      rfl
    · rcases mem_cons.mp hr' with rfl | hr'
      · exact hframe x hx
      · exact (hframes r' hr' x (by omega)).trans (hframe x hx)

end

/-- **`strtok_r` splits a string.** The calls stay inside the string, and each returns the next
maximal run of characters outside its set from where the last one stopped; after a null pointer there
are only null pointers, and with one set the runs are the words of the string. -/
theorem strtok_r_splits {m : Mem} {s savePtr : Nat} {t : List UInt8} {sets : List (List UInt8)}
    (hs : s ≠ 0) (ht : 0 ∉ t) (hm : m.Holds s (t ++ [0])) (h : ∀ ds ∈ sets, 0 ∉ ds) :
    (∃ rs, strtokAll (s + t.length) ⟨m, savePtr⟩ (some s) sets = some rs ∧
      Forall₂ (Answers (s + t.length)) rs (tokens sets t) ∧
      ∀ r ∈ rs, ∀ x, x < s ∨ s + t.length ≤ x → r.2.mem x = m x) ∧
    (∃ found n, tokens sets t = List.map some found ++ replicate n none) ∧
    ∀ ds n, sets = replicate n ds → (tokens sets t).map (Option.map Prod.fst) =
      ((words ds.contains t).map some ++ replicate n none).take n := by
  refine ⟨strtokAll_answers h ht hm hs rfl rfl, tokens_ends sets t, ?_⟩
  rintro ds n rfl
  exact tokens_replicate ds n t

theorem strtok_r_splits_call :
    ∃ rs, strtokAll 9 ⟨fun i => [32, 97, 98, 32, 99].getD (i - 4) 0, 0⟩ (some 4) [[32], [32]] =
      some rs ∧
      Forall₂ (Answers 9) rs [some ([97, 98], [32, 99]), some ([99], [])] := by
  obtain ⟨⟨rs, hcalls, hanswers, -⟩, -⟩ := @strtok_r_splits
    (fun i => [32, 97, 98, 32, 99].getD (i - 4) 0) 4 0 [32, 97, 98, 32, 99] [[32], [32]]
    (by decide) (by decide) ⟨rfl, rfl, rfl, rfl, rfl, rfl, trivial⟩ (by decide)
  exact ⟨rs, hcalls, hanswers⟩

end Strtok

end Pintos
