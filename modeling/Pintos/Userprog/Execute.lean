import Pintos.Userprog.Arguments
import Pintos.Userprog.Process

/-!
# The resources of `process_execute` (`userprog/process.c`)

`process_execute` takes a page for the command line, which the new thread owns, and a page for the
file's name, which it frees itself, and opens the executable for the new thread's table. What the
calls in it give is an `ExecEnv`.

Not every way through the function gives everything back. `strtok_r` moves `file_name` behind
leading spaces, and the page is freed by that address; it is `NULL` if there is no word.
`filesys_open` asserts that there was memory for the root directory. The handle is given to the
child that `childelem_from_tid` finds, without a look at whether there is one, whether it has a
table and whether the table has room.
-/

namespace Pintos.Process

open Lib List Option

/-- `TID_ERROR`. -/
def tidError : Int := -1

/-- The thread that `thread_create` has made; `allocate_tid` counts from 1. -/
structure Created where
  tid : Int
  child : Nat
  tid_pos : 0 < tid

/-- `files` of a thread: `NULL` if `thread_create` found no page for it, and freed by
`close_all_files` if the thread has exited. -/
inductive FilesPage
  | null
  | live (files : Nat → Option Nat)
  | freed

/-- What the calls in `process_execute` give, and the threads as they are when the child is looked
for. -/
structure ExecEnv where
  /-- The two calls of `palloc_get_page`. -/
  copyPage : Option Nat
  namePage : Option Nat
  page_ok : ∀ a, copyPage = some a ∨ namePage = some a → a % 4096 = 0 ∧ a ≠ 0
  pages_apart : ∀ a, copyPage = some a → namePage ≠ some a
  /-- `none` if there is no page for the thread. -/
  created : Option Created
  /-- `dir_open_root` finds memory. -/
  root : Bool
  /-- What `filesys_open` returns for a name. -/
  opened : Option Nat
  page : Nat → Option Thread
  children : List Nat
  files : Nat → FilesPage

inductive ExecCrash
  | assertion
  /-- An access through a pointer to no object. -/
  | fault
  deriving DecidableEq, Repr

/-- What `process_execute` returns and has done: the pages it has freed, the handle it has opened,
and the thread, slot and handle it has stored. It closes no handle. -/
structure ExecResult where
  tid : Int
  freed : List Nat
  opened : Option Nat
  stored : Option (Nat × Nat × Nat)
  deriving DecidableEq, Repr

/-- `palloc_free_page` of a page of a pool or of `NULL`. -/
def freePage (a : Nat) (freed : List Nat) : Except ExecCrash (List Nat) :=
  if a % 4096 ≠ 0 then .error .assertion
  else .ok (if a = 0 then freed else freed ++ [a])

/-- `thread_create`: `init_thread` asserts that there is a name. -/
def threadCreate (env : ExecEnv) (name : Option Nat) : Except ExecCrash Int :=
  match env.created with
  | none => .ok tidError
  | some c => if name.isSome then .ok c.tid else .error .assertion

/-- `filesys_open`, which asserts that the root directory was opened, and `dir_lookup` that there is
a name. -/
def filesysOpen (env : ExecEnv) (name : Option Nat) : Except ExecCrash (Option Nat) :=
  if env.root && name.isSome then .ok env.opened else .error .assertion

/-- The loop over the table of the child that `childelem_from_tid` finds. -/
def handOver (env : ExecEnv) (tid : Int) : Option Nat → Except ExecCrash (Option (Nat × Nat × Nat))
  | none => .ok none
  | some file =>
    match childelemFromTid env.page tid env.children with
    | some (some c) =>
      match env.files c with
      | .null => .error .fault
      -- what is read and written there is not the child's any more
      | .freed => .ok none
      | .live files =>
        .ok (((List.range' 2 1022).find? fun i => (files i).isNone).map fun i => (c, i, file))
    -- `list_entry (NULL, …)`
    | _ => .error .fault

/-- `process_execute`. -/
def processExecute (env : ExecEnv) (cmdline : List UInt8) : Except ExecCrash ExecResult :=
  match env.copyPage with
  | none => .ok ⟨tidError, [], none, none⟩
  | some copy =>
    match env.namePage with
    | none => do
        let freed ← freePage copy []
        .ok ⟨tidError, freed, none, none⟩
    | some name => do
        let fileName := (strtokR (cmdline.take 4095)).map fun tok => name + tok.skipped
        let tid ← threadCreate env fileName
        let file ← filesysOpen env fileName
        let stored ← handOver env tid file
        let freed ← freePage (fileName.getD 0) []
        let freed ← if tid = tidError then freePage copy freed else .ok freed
        .ok ⟨tid, freed, file, stored⟩

/-- `process_execute` returns and has balanced its resources. -/
structure Balanced (env : ExecEnv) (r : ExecResult) : Prop where
  tid : r.tid = tidError ∨ ∃ c, env.created = some c ∧ r.tid = c.tid
  /-- The page of the name is freed once, if it came to be. -/
  name : ∀ a, env.copyPage.isSome = true → env.namePage = some a → r.freed.count a = 1
  /-- The copy is freed once if no thread came to own it, and else not at all. -/
  copy : ∀ a, env.copyPage = some a →
    r.freed.count a = if env.namePage.isSome && env.created.isSome then 0 else 1
  /-- The handle is in the table of the new thread. -/
  handle : ∀ f, r.opened = some f →
    ∃ c i, env.created = some c ∧ r.stored = some (c.child, i, f)

/-- The line starts with a word. -/
def StartsWithWord (cmdline : List UInt8) : Prop := ∃ c s, cmdline = c :: s ∧ c ≠ space

/-- The new thread is found, and its table has room. -/
def Receives (env : ExecEnv) : Prop :=
  ∃ c files i, env.created = some c ∧
    childelemFromTid env.page c.tid env.children = some (some c.child) ∧
    env.files c.child = .live files ∧ 2 ≤ i ∧ i < 1024 ∧ files i = none

/-! ## The name -/

theorem strtokR_of_startsWithWord {cmdline : List UInt8} (h : StartsWithWord cmdline) :
    ∃ tok, strtokR (cmdline.take 4095) = some tok ∧ tok.skipped = 0 := by
  obtain ⟨c, s, rfl, hc⟩ := h
  have hskip : skipDelimiters (c :: s.take 4094) = (0, c :: s.take 4094) := by
    rw [skipDelimiters, if_neg hc]
  show ∃ tok, strtokR (c :: s.take 4094) = some tok ∧ tok.skipped = 0
  simp only [strtokR, hskip]
  exact ⟨_, rfl, rfl⟩

theorem strtokR_of_not_startsWithWord {cmdline : List UInt8} (h : ¬ StartsWithWord cmdline)
    {tok : Token} (htok : strtokR (cmdline.take 4095) = some tok) :
    0 < tok.skipped ∧ tok.skipped < 4096 := by
  obtain ⟨hne, hfree, hs⟩ := strtokR_some htok
  obtain ⟨rest, hs⟩ : ∃ rest, cmdline.take 4095 =
      List.replicate tok.skipped space ++ (tok.chars ++ rest) := by
    rcases hs with ⟨hs, -⟩ | hs
    · exact ⟨[], by rw [hs, append_nil]⟩
    · exact ⟨_, hs⟩
  constructor
  · by_contra hzero
    have hzero : tok.skipped = 0 := by omega
    obtain ⟨c, cs, hcs⟩ := exists_cons_of_ne_nil hne
    rw [hzero, hcs] at hs
    cases cmdline with
    | nil => cases hs
    | cons b s =>
      have hb : b = c := (List.cons.inj hs).1
      exact h ⟨b, s, rfl, hb ▸ hfree c (hcs ▸ mem_cons_self)⟩
  · have hlen := congrArg List.length hs
    rw [length_append, length_replicate, length_take] at hlen
    omega

/-! ## The handle -/

theorem find_slot_iff {files : Nat → Option Nat} :
    (∃ i, (List.range' 2 1022).find? (fun i => (files i).isNone) = some i) ↔
      ∃ i, 2 ≤ i ∧ i < 1024 ∧ files i = none := by
  rw [← isSome_iff_exists, List.find?_isSome]
  constructor
  · rintro ⟨i, hi, hnone⟩
    obtain ⟨hlo, hhi⟩ := mem_range'_1.mp hi
    exact ⟨i, hlo, by omega, isNone_iff_eq_none.mp hnone⟩
  · rintro ⟨i, hlo, hhi, hnone⟩
    exact ⟨i, mem_range'_1.mpr ⟨hlo, by omega⟩, isNone_iff_eq_none.mpr hnone⟩

theorem handOver_iff {env : ExecEnv} {tid : Int} {file : Nat}
    (htid : ∀ c, env.created = some c → tid = c.tid) :
    (∃ c i, env.created = some c ∧ handOver env tid (some file) = .ok (some (c.child, i, file))) ↔
      Receives env := by
  constructor
  · rintro ⟨c, i, hc, hstored⟩
    simp only [handOver] at hstored
    split at hstored
    · next c' hfind =>
      split at hstored
      · cases hstored
      · cases hstored
      · next files hfiles =>
        obtain ⟨j, hj, heq⟩ := map_eq_some_iff.mp (Except.ok.inj hstored)
        obtain ⟨rfl, rfl, -⟩ : c' = c.child ∧ j = i ∧ _ := by
          simpa only [Prod.mk.injEq] using heq
        obtain ⟨k, hlo, hhi, hnone⟩ := find_slot_iff.mp ⟨j, hj⟩
        rw [htid c hc] at hfind
        exact ⟨c, files, k, hc, hfind, hfiles, hlo, hhi, hnone⟩
    · cases hstored
  · rintro ⟨c, files, k, hc, hfind, hfiles, hlo, hhi, hnone⟩
    obtain ⟨i, hi⟩ := find_slot_iff.mpr ⟨k, hlo, hhi, hnone⟩
    refine ⟨c, i, hc, ?_⟩
    rw [← htid c hc] at hfind
    simp only [handOver, hfind, hfiles, hi]
    rfl

/-! ## The whole function -/

section Execute

variable {env : ExecEnv} {cmdline : List UInt8} {copy name : Nat}

/-- What `thread_create` returns for a name. -/
def ExecEnv.tid (env : ExecEnv) : Int := (env.created.map Created.tid).getD tidError

theorem threadCreate_some (a : Nat) : threadCreate env (some a) = .ok env.tid := by
  unfold threadCreate ExecEnv.tid
  cases env.created with
  | none => rfl
  | some c => rfl

theorem tid_of_created {c : Created} (h : env.created = some c) : env.tid = c.tid := by
  unfold ExecEnv.tid
  rw [h]
  rfl

theorem tid_eq_tidError_iff : env.tid = tidError ↔ env.created = none := by
  cases hc : env.created with
  | none =>
    unfold ExecEnv.tid
    rw [hc]
    exact ⟨fun _ => rfl, fun _ => rfl⟩
  | some c =>
    rw [tid_of_created hc]
    refine ⟨fun htid => ?_, nofun⟩
    have hpos := c.tid_pos
    unfold tidError at htid
    omega

theorem freePage_page {a : Nat} (h : a % 4096 = 0 ∧ a ≠ 0) (freed : List Nat) :
    freePage a freed = .ok (freed ++ [a]) := by
  rw [freePage, if_neg (not_not.mpr h.1), if_neg h.2]

section

variable (hcopy : env.copyPage = some copy) (hname : env.namePage = some name)
include hcopy hname

theorem processExecute_some {tok : Token} (htok : strtokR (cmdline.take 4095) = some tok)
    {r : ExecResult} (h : processExecute env cmdline = .ok r) :
    env.root = true ∧ r.opened = env.opened ∧ handOver env env.tid env.opened = .ok r.stored ∧
      (name + tok.skipped) % 4096 = 0 := by
  simp only [processExecute, hcopy, hname, htok, map_some, threadCreate_some] at h
  cases hopen : filesysOpen env (some (name + tok.skipped)) with
  | error e =>
    rw [hopen] at h
    cases h
  | ok file =>
    rw [hopen] at h
    have hroot : env.root = true ∧ file = env.opened := by
      unfold filesysOpen at hopen
      rw [isSome_some, Bool.and_true] at hopen
      split at hopen
      · next hroot => exact ⟨hroot, (Except.ok.inj hopen).symm⟩
      · cases hopen
    obtain ⟨hroot, rfl⟩ := hroot
    cases hstored : handOver env env.tid env.opened with
    | error e =>
      simp only [Except.bind, bind, hstored] at h
      cases h
    | ok stored =>
      cases hfree : freePage (name + tok.skipped) [] with
      | error e =>
        simp only [Except.bind, bind, hstored, getD_some, hfree] at h
        cases h
      | ok freed =>
        have haligned : (name + tok.skipped) % 4096 = 0 := by
          by_contra hofs
          rw [freePage, if_pos hofs] at hfree
          cases hfree
        simp only [Except.bind, bind, hstored, getD_some, hfree] at h
        -- whether the copy is freed too
        split at h
        · split at h
          · cases h
          · cases h
            exact ⟨hroot, rfl, rfl, haligned⟩
        · cases h
          exact ⟨hroot, rfl, rfl, haligned⟩

theorem processExecute_noName (htok : strtokR (cmdline.take 4095) = none) :
    processExecute env cmdline = .error .assertion := by
  simp only [processExecute, hcopy, hname, htok, map_none]
  have hopen : filesysOpen env none = .error .assertion := by
    unfold filesysOpen
    rw [isSome_none, Bool.and_false]
    rfl
  cases hc : env.created with
  | none =>
    simp only [threadCreate, hc, hopen]
    rfl
  | some c =>
    simp only [threadCreate, hc]
    rfl

theorem processExecute_ok (hstart : StartsWithWord cmdline) (hroot : env.root = true)
    {stored : Option (Nat × Nat × Nat)} (hstored : handOver env env.tid env.opened = .ok stored) :
    processExecute env cmdline =
      .ok ⟨env.tid, if env.created.isSome then [name] else [name, copy], env.opened, stored⟩ := by
  obtain ⟨tok, htok, hskip⟩ := strtokR_of_startsWithWord hstart
  have hopen : ∀ a, filesysOpen env (some a) = .ok env.opened := by
    intro a
    rw [filesysOpen, hroot]
    rfl
  have hfree := freePage_page (env.page_ok name (.inr hname)) []
  simp only [processExecute, hcopy, hname, htok, map_some, hskip, Nat.add_zero,
    threadCreate_some, hopen, Except.bind, bind, hstored, getD_some, hfree]
  cases hc : env.created with
  | none =>
    rw [if_pos (tid_eq_tidError_iff.mpr hc), freePage_page (env.page_ok copy (.inl hcopy))]
    rfl
  | some c =>
    rw [if_neg fun htid => some_ne_none c (hc.symm.trans (tid_eq_tidError_iff.mp htid))]
    rfl

theorem balanced_of_stored {stored : Option (Nat × Nat × Nat)} (hstored : ∀ f, env.opened = some f →
      ∃ c i, env.created = some c ∧ stored = some (c.child, i, f)) :
    Balanced env
      ⟨env.tid, if env.created.isSome then [name] else [name, copy], env.opened, stored⟩ := by
  have hne : name ≠ copy := by
    rintro rfl
    exact env.pages_apart name hcopy hname
  refine ⟨?_, ?_, ?_, hstored⟩
  · cases hc : env.created with
    | none => exact .inl (tid_eq_tidError_iff.mpr hc)
    | some c => exact .inr ⟨c, rfl, tid_of_created hc⟩
  · intro a _ ha
    obtain rfl : name = a := Option.some.inj (hname.symm.trans ha)
    show List.count name (if env.created.isSome then [name] else [name, copy]) = 1
    split
    · exact count_singleton_self
    · rw [count_cons_self, count_singleton, if_neg (by simpa using hne.symm)]
  · intro a ha
    obtain rfl : copy = a := Option.some.inj (hcopy.symm.trans ha)
    show List.count copy (if env.created.isSome then [name] else [name, copy]) = _
    rw [hname, isSome_some, Bool.true_and]
    split
    · rw [count_singleton, if_neg (by simpa using hne)]
    · rw [count_cons_of_ne hne, count_singleton_self]

end

end Execute

/-- **When `process_execute` balances its resources.** It returns, has freed the page of the name
once, has freed the copy of the line if and only if no thread owns it, and has put the handle into
the new thread's table, if and only if it got no pages, or the line starts with a word, the root
directory was opened, and the executable was not opened or the new thread's table has room. -/
theorem processExecute_balanced_iff (env : ExecEnv) (cmdline : List UInt8) :
    (∃ r, processExecute env cmdline = .ok r ∧ Balanced env r) ↔
      env.copyPage = none ∨ env.namePage = none ∨
        StartsWithWord cmdline ∧ env.root = true ∧ (env.opened = none ∨ Receives env) := by
  cases hcopy : env.copyPage with
  | none =>
    refine ⟨fun _ => .inl rfl, fun _ => ?_⟩
    refine ⟨⟨tidError, [], none, none⟩, ?_, .inl rfl, ?_, ?_, nofun⟩
    · simp only [processExecute, hcopy]
    · intro a hsome
      rw [hcopy] at hsome
      cases hsome
    · intro a ha
      rw [hcopy] at ha
      cases ha
  | some copy =>
    cases hname : env.namePage with
    | none =>
      refine ⟨fun _ => .inr (.inl rfl), fun _ => ?_⟩
      refine ⟨⟨tidError, [copy], none, none⟩, ?_, .inl rfl, ?_, ?_, nofun⟩
      · simp only [processExecute, hcopy, hname, freePage_page (env.page_ok copy (.inl hcopy))]
        rfl
      · intro a _ ha
        rw [hname] at ha
        cases ha
      · intro a ha
        obtain rfl : copy = a := Option.some.inj (hcopy.symm.trans ha)
        rw [hname]
        exact count_singleton_self
    | some name =>
      rw [or_iff_right (some_ne_none copy), or_iff_right (some_ne_none name)]
      constructor
      · rintro ⟨r, hrun, hbal⟩
        cases htok : strtokR (cmdline.take 4095) with
        | none =>
          rw [processExecute_noName hcopy hname htok] at hrun
          cases hrun
        | some tok =>
          obtain ⟨hroot, hopened, hstored, hal⟩ := processExecute_some hcopy hname htok hrun
          refine ⟨?_, hroot, ?_⟩
          · by_contra hstart
            obtain ⟨hlo, hhi⟩ := strtokR_of_not_startsWithWord hstart htok
            have hpage := (env.page_ok name (.inr hname)).1
            omega
          · cases hf : env.opened with
            | none => exact .inl rfl
            | some f =>
              obtain ⟨c, i, hc, hr⟩ := hbal.handle f (hopened.trans hf)
              rw [hf, hr] at hstored
              exact .inr ((handOver_iff fun _ => tid_of_created).mp ⟨c, i, hc, hstored⟩)
      · rintro ⟨hstart, hroot, hhandle⟩
        cases hf : env.opened with
        | none =>
          have hstored : handOver env env.tid env.opened = .ok none := by
            rw [hf]
            rfl
          refine ⟨_, processExecute_ok hcopy hname hstart hroot hstored,
            balanced_of_stored hcopy hname ?_⟩
          intro f hopened
          rw [hf] at hopened
          cases hopened
        | some f =>
          have hrec := hhandle.resolve_left (by rw [hf]; exact some_ne_none f)
          obtain ⟨c, i, hc, hstored⟩ :=
            (@handOver_iff env env.tid f fun _ => tid_of_created).mpr hrec
          rw [← hf] at hstored
          refine ⟨_, processExecute_ok hcopy hname hstart hroot hstored,
            balanced_of_stored hcopy hname ?_⟩
          intro f' hopened
          obtain rfl : f = f' := Option.some.inj (hf.symm.trans hopened)
          exact ⟨c, i, hc, rfl⟩

/-- Both pages and a thread; the executable is handle 7, and the thread's table is empty. -/
def goodExec : ExecEnv where
  copyPage := some 0xc0100000
  namePage := some 0xc0101000
  page_ok := by
    rintro a (h | h) <;> cases h <;> exact ⟨rfl, by decide⟩
  pages_apart := by
    intro a h
    cases h
    decide
  created := some ⟨3, 0xc0102000, by decide⟩
  root := true
  opened := some 7
  page := Function.update (fun _ => none) 0xc0102000 (some (initThread 3 0xc0103000))
  children := [0xc0102000]
  files := fun _ => .live fun _ => none

/-- Four ways through `process_execute` that are not balanced: a space in front of the name, a line
of spaces, no thread for an executable that is there, and a child that has exited before its table
was looked at. -/
theorem processExecute_unbalanced :
    processExecute goodExec [32, 108, 115] = .error .assertion ∧
    processExecute goodExec [32, 32] = .error .assertion ∧
    processExecute { goodExec with created := none } [108, 115] = .error .fault ∧
    processExecute { goodExec with files := fun _ => .freed } [108, 115] =
      .ok ⟨3, [0xc0101000], some 7, none⟩ :=
  ⟨by decide +kernel, by decide +kernel, by decide +kernel, by decide +kernel⟩

end Pintos.Process
