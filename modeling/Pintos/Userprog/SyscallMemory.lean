import Pintos.Userprog.Syscall

/-!
# What system calls check before they access it

The checks look at the first byte of each argument word and at the first byte of a string or a
buffer, and at all pages of the buffer of `read`. So a word, a string or a buffer that goes on in
another page may hit a page that is not there. And nothing keeps a page that has been checked from
being taken again before it is accessed.
-/

namespace Pintos.Syscall

open Lib Function

/-! ## Checks -/

namespace UserMem

variable {u u' : UserMem} {esp pt a n : Nat} {g : Bool}

/-- The byte at `a` is one that the process can read, be its page present or not yet. -/
def Readable (u : UserMem) (a : Nat) : Prop :=
  a < physBase ∧ (u.present (a / 4096) = true ∨ (u.entry (a / 4096)).isSome = true)

/-- What `is_pt_valid` leaves: the page of the address is there, zeroed if it is a new page of the
stack, and the others are as they were. -/
structure Checked (u u' : UserMem) (esp pt : Nat) (g : Bool) : Prop where
  ne : pt ≠ 0
  lt : pt < physBase
  present : ∀ p, u'.present p = true ↔ u.present p = true ∨ p = pt / 4096
  writable : ∀ p, u.present p = true → u'.writable p = u.writable p
  entry : u'.entry = u.entry
  byte : ∀ a, u'.byte a = if u.present (pt / 4096) = false ∧
    (g && (esp + 4294967264) % 4294967296 ≤ pt) = true ∧ a / 4096 = pt / 4096 then 0 else u.byte a
  turns : u'.turns = u.turns

theorem check_spec (h : u.check esp pt g = some u') : Checked u u' esp pt g := by
  unfold check at h
  split_ifs at h with huser hin
  · cases h
    refine ⟨by omega, by omega, fun p => ⟨.inl, ?_⟩, fun _ _ => rfl, rfl, fun a => ?_, rfl⟩
    · rintro (hp | rfl)
      · exact hp
      · exact hin
    · simp [hin]
  · have hout : u.present (pt / 4096) = false := by simpa using hin
    have hpresent : ∀ p, update u.present (pt / 4096) true p = true ↔
        u.present p = true ∨ p = pt / 4096 := by
      intro p
      by_cases hp : p = pt / 4096 <;> simp [hp]
    have hold : ∀ {w p}, u.present p = true → update u.writable (pt / 4096) w p = u.writable p := by
      rintro w p hp
      refine update_of_ne ?_ ..
      rintro rfl
      rw [hout] at hp
      cases hp
    unfold pageIn at h
    split_ifs at h with hturn hgrows
    · cases h
      refine ⟨by omega, by omega, hpresent, fun p hp => hold hp, rfl, fun a => ?_, rfl⟩
      simp only [hout, hgrows, true_and]
    · obtain ⟨w, -, rfl⟩ := Option.map_eq_some_iff.mp h
      refine ⟨by omega, by omega, hpresent, fun p hp => hold hp, rfl, fun a => ?_, rfl⟩
      rw [if_neg fun hnew => hgrows hnew.2.1]

/-- An address that the process can read passes unless a frame is refused. -/
theorem Readable.check (h : u.Readable pt) (hne : pt ≠ 0) (hturn : u.turns.head? ≠ some .refuses) :
    ∃ u', u.check esp pt g = some u' := by
  obtain ⟨hlt, hpage⟩ := h
  unfold UserMem.check pageIn
  rw [if_neg (by omega)]
  split_ifs with hin hgrows
  · exact ⟨u, rfl⟩
  · exact ⟨_, rfl⟩
  · obtain ⟨w, hw⟩ := Option.isSome_iff_exists.mp (hpage.resolve_left hin)
    rw [hw]
    exact ⟨_, rfl⟩

/-- Without growth of the stack no other does. -/
theorem check_eq_none (h : pt = 0 ∨ ¬ u.Readable pt) : u.check esp pt false = none := by
  simp only [check, pageIn, Bool.false_and, Bool.false_eq_true, if_false]
  split_ifs with huser hin
  · rfl
  · exact absurd ⟨by omega, .inl hin⟩ (h.resolve_left (by omega))
  · rfl
  · refine Option.map_eq_none_iff.mpr (Option.eq_none_iff_forall_ne_some.mpr fun w hw => ?_)
    exact h.resolve_left (by omega) ⟨by omega, .inr (hw ▸ rfl)⟩

theorem lose_of_calm (h : u.turns = []) : u.lose = u := by
  simp only [lose, h]

theorem lose_writable : u.lose.writable = u.writable := by
  unfold lose
  split <;> rfl

theorem lose_byte : u.lose.byte = u.byte := by
  unfold lose
  split <;> rfl

end UserMem

open UserMem

section Checks

variable {u u' : UserMem} {esp pt a n : Nat} {g : Bool}

theorem isPtValid_ok (h : u.check esp pt g = some u') :
    isPtValid esp pt g u = .ok ((), u'.lose) := by
  simp only [isPtValid, h]

theorem isPtValid_error (h : u.check esp pt g = none) : isPtValid esp pt g u = .error (.ended (-1)) := by
  simp only [isPtValid, h]

theorem check_of_isPtValid (h : isPtValid esp pt g u = .ok ((), u')) :
    ∃ u₁, u.check esp pt g = some u₁ ∧ u' = u₁.lose := by
  cases hc : u.check esp pt g with
  | none =>
    rw [isPtValid_error hc] at h
    cases h
  | some u₁ =>
    rw [isPtValid_ok hc] at h
    cases h
    exact ⟨u₁, rfl, rfl⟩

theorem isPtValid_calm (hcalm : u.turns = []) :
    isPtValid esp pt g u = .ok ((), u') ↔ u.check esp pt g = some u' := by
  constructor
  · intro h
    obtain ⟨u₁, hc, rfl⟩ := check_of_isPtValid h
    rw [hc, lose_of_calm ((check_spec hc).turns.trans hcalm)]
  · intro h
    rw [isPtValid_ok h, lose_of_calm ((check_spec h).turns.trans hcalm)]

/-- The page of an address that has passed may be gone when it is accessed. -/
theorem isPtValid_taken (h : u.check esp pt g = some u') (hturns : u.turns = [.takes [pt / 4096]]) :
    ∃ u₁, isPtValid esp pt g u = .ok ((), u₁) ∧ u₁.accessible pt = false := by
  refine ⟨_, isPtValid_ok h, ?_⟩
  simp [accessible, lose, (check_spec h).turns.trans hturns]

theorem checkPages_succ {p n : Nat} (h : checkPages esp p (n + 1) u = .ok ((), u')) :
    ∃ u₁, u.check esp p true = some u₁ ∧ u₁.writable (p / 4096) = true ∧
      checkPages esp (p + 4096) n u₁.lose = .ok ((), u') := by
  obtain ⟨_, u₀, hvalid, h⟩ := bind_eq_ok.mp h
  obtain ⟨u₁, hcheck, rfl⟩ := check_of_isPtValid hvalid
  have hw : isWritable p u₁.lose = .ok (u₁.writable (p / 4096), u₁.lose) := by
    rw [isWritable, lose_writable]
  rw [bind_ok hw] at h
  split at h
  · next hwritable => exact ⟨u₁, hcheck, hwritable, h⟩
  · cases h

theorem checkPages_error {p n : Nat} {e : Stop} (h : checkPages esp p n u = .error e) :
    e = .ended (-1) := by
  induction n generalizing p u with
  | zero => cases h
  | succ n ih =>
    cases hc : u.check esp p true with
    | none =>
      rw [checkPages, bind_error (isPtValid_error hc)] at h
      cases h
      rfl
    | some u₁ =>
      have hw : isWritable p u₁.lose = .ok (u₁.lose.writable (p / 4096), u₁.lose) := rfl
      rw [checkPages, bind_ok (isPtValid_ok hc), bind_ok hw] at h
      split at h
      · exact ih h
      · cases h
        rfl

end Checks

/-! ## The handler

What a system call can stop for follows from what its single accesses and checks can stop for. -/

/-- The accesses and checks keep `I` and do not stop for a bad reason. -/
structure Base (I : UserMem → Prop) (bad : Stop → Prop) : Prop where
  read : ∀ {a}, Guarded I bad (readByte a)
  write : ∀ {a b}, Guarded I bad (writeByte a b)
  valid : ∀ {esp pt g}, Guarded I bad (isPtValid esp pt g)
  past : ∀ {a}, physBase ≤ a → ¬ bad (.fault a)
  killed : ¬ bad (.ended (-1))

section Handler

variable {I : UserMem → Prop} {bad : Stop → Prop} {k : Kernel} {esp args a n : Nat}

theorem isWritable_guarded : Guarded I bad (isWritable a) := by
  refine fun u hu => ⟨nofun, fun w u' hw => ?_⟩
  cases hw
  exact hu

variable (h : Base I bad)
include h

theorem Base.throw : Guarded I bad (throw (.ended (-1)) : Handler Unit) :=
  guarded_error (fun _ => rfl) h.killed

theorem Base.readWord : Guarded I bad (readWord a) :=
  h.read.bind fun _ => h.read.bind fun _ => h.read.bind fun _ => h.read.bind fun _ => guarded_pure

theorem Base.readBytes : Guarded I bad (readBytes a n) := by
  induction n generalizing a with
  | zero => exact guarded_pure
  | succ n ih => exact h.read.bind fun _ => ih

theorem Base.writeBytes {bs : List UInt8} : Guarded I bad (writeBytes a bs) := by
  induction bs generalizing a with
  | nil => exact guarded_pure
  | cons b bs ih => exact h.write.bind fun _ => ih

theorem Base.strlenFrom (hfuel : physBase ≤ a + n) : Guarded I bad (strlenFrom a n) := by
  induction n generalizing a with
  | zero => exact guarded_error (fun _ => rfl) (h.past hfuel)
  | succ n ih =>
    have hrest := ih (a := a + 1) (by omega)
    exact h.read.bind fun _ => guarded_pure.ite (hrest.bind fun _ => guarded_pure)

theorem Base.strlen : Guarded I bad (strlen a) := h.strlenFrom (by omega)

theorem Base.strlcpy : Guarded I bad (strlcpy a n) := h.strlen.bind fun _ => h.readBytes

theorem Base.strcmp {e : List UInt8} : Guarded I bad (strcmp a e) := by
  induction e generalizing a with
  | nil => exact h.read.bind fun _ => guarded_pure
  | cons b bs ih => exact h.read.bind fun _ => ih.ite guarded_pure

theorem Base.lookup {names : List (List UInt8)} : Guarded I bad (lookup a names) := by
  induction names with
  | nil => exact guarded_pure
  | cons e es ih => exact h.strcmp.bind fun _ => guarded_pure.ite ih

theorem Base.processArgs {ptrPos : Nat} : Guarded I bad (processArgs esp a n ptrPos) := by
  induction n generalizing a ptrPos with
  | zero => exact guarded_pure
  | succ n ih =>
    refine h.valid.bind fun _ => .ite ?_ ih
    exact h.readWord.bind fun _ => h.valid.bind fun _ => ih

theorem Base.sysCreate : Guarded I bad (sysCreate k a) := by
  refine .ite (h.read.bind fun _ => .ite ?_ guarded_pure) guarded_pure
  refine h.strlen.bind fun _ => .ite ?_ guarded_pure
  exact h.lookup.bind fun _ => h.strlcpy.ite guarded_pure

theorem Base.putbuf : Guarded I bad (putbuf a n) := by
  induction n generalizing a with
  | zero => exact guarded_pure
  | succ n ih => exact h.read.bind fun _ => ih.bind fun _ => guarded_pure

theorem Base.consoleLoop {buffer size fuel pos charBuffer : Nat} {left : Int} :
    Guarded I bad (consoleLoop esp buffer size fuel pos charBuffer left) := by
  induction fuel generalizing pos charBuffer left with
  | zero => exact guarded_pure
  | succ fuel ih =>
    refine .ite (h.valid.bind fun _ => .ite ?_ ?_) guarded_pure
    · exact h.putbuf.bind fun _ => ih.bind fun _ => guarded_pure
    · exact h.putbuf.bind fun _ => ih.bind fun _ => guarded_pure

theorem Base.getLoop : Guarded I bad (getLoop k esp a n) := by
  induction n generalizing a with
  | zero => exact guarded_pure
  | succ n ih =>
    exact h.valid.bind fun _ => isWritable_guarded.bind fun _ =>
      .ite (h.write.bind fun _ => ih) h.throw

theorem Base.checkPages : Guarded I bad (checkPages esp a n) := by
  induction n generalizing a with
  | zero => exact guarded_pure
  | succ n ih => exact h.valid.bind fun _ => isWritable_guarded.bind fun _ => ih.ite h.throw

theorem Base.sysWrite {fd buffer size : Nat} : Guarded I bad (sysWrite k esp fd buffer size) := by
  refine .ite (.bind (h.consoleLoop.bind fun _ => guarded_pure) fun _ => guarded_pure) ?_
  cases k.fileOf fd with
  | none => exact guarded_pure
  | some file => exact h.readBytes

theorem Base.sysRead {fd buffer size : Nat} : Guarded I bad (sysRead k esp fd buffer size) := by
  refine h.getLoop.ite ?_
  cases k.fileOf fd with
  | none => exact guarded_pure
  | some file => exact h.checkPages.bind fun _ => h.writeBytes

/-- Each call checks its arguments, reads them and then does what it is for. Only `exit` ends the
process with a status of its own. -/
theorem Base.dispatch (hexit : n = 1 → ∀ st, ¬ bad (.ended st)) :
    Guarded I bad (dispatch k esp args n) := by
  have hargs : ∀ {argc ptrPos : Nat} {f : Nat → Handler Unit}, (∀ w, Guarded I bad (f w)) →
      Guarded I bad (do
        Syscall.processArgs esp args argc ptrPos
        let w ← Syscall.readWord args
        f w) := fun hf => h.processArgs.bind fun _ => h.readWord.bind hf
  match n with
  | 0 => exact guarded_pure
  | 1 => exact hargs fun _ => guarded_error (fun _ => rfl) (hexit rfl _)
  | 2 => exact hargs fun _ => h.strlcpy.bind fun _ => h.strlcpy
  | 4 => exact hargs fun _ => h.readWord.bind fun _ => h.sysCreate
  | 5 | 6 => exact hargs fun _ => h.lookup.bind fun _ => guarded_pure
  | 8 => exact hargs fun _ => h.readWord.bind fun _ => h.readWord.bind fun _ => h.sysRead
  | 9 => exact hargs fun _ => h.readWord.bind fun _ => h.readWord.bind fun _ => h.sysWrite
  | 10 => exact hargs fun _ => h.readWord.bind fun _ => guarded_pure
  | 3 | 7 | 11 | 12 => exact hargs fun _ => guarded_pure
  | n + 13 => exact h.throw

end Handler

/-! ## What calls stop for -/

section Results

variable {k : Kernel} {esp : Nat} {u v : UserMem}

theorem readByte_ok {a : Nat} {b : UInt8} (h : readByte a u = .ok (b, v)) :
    u.accessible a = true ∧ b = u.byte a ∧ v = u := by
  unfold readByte at h
  split at h
  · next hin =>
    cases h
    exact ⟨hin, rfl, rfl⟩
  · cases h

/-- Unless pages are taken, those of `u` are still there in `v`, as writable as they were. -/
def Kept (u v : UserMem) : Prop :=
  u.turns = [] →
    v.turns = [] ∧ ∀ p, u.present p = true → v.present p = true ∧ v.writable p = u.writable p

/-- A fault in a page that was there before, and writable, or, if `other` holds, an end with another
status than -1. -/
def Unwanted (u : UserMem) (other : Prop) (e : Stop) : Prop :=
  (u.turns = [] ∧ ∃ a < physBase, u.present (a / 4096) = true ∧ u.writable (a / 4096) = true ∧
    e = .fault a) ∨ other ∧ ∃ st, st ≠ -1 ∧ e = .ended st

theorem base_unwanted {other : Prop} : Base (Kept u) (Unwanted u other) where
  read {a} v hv := by
    refine ⟨fun e he => ?_, fun b v' h => ?_⟩
    · unfold readByte at he
      split at he
      · cases he
      · next hout =>
        cases he
        rintro (⟨hcalm, a', hlt, hin, -, he⟩ | ⟨-, st, -, he⟩)
        · cases he
          exact hout (by simp [UserMem.accessible, hlt, ((hv hcalm).2 _ hin).1])
        · cases he
    · obtain ⟨-, -, rfl⟩ := readByte_ok h
      exact hv
  write {a b} v hv := by
    refine ⟨fun e he => ?_, fun _ v' h => ?_⟩
    · unfold writeByte at he
      split at he
      · cases he
      · next hout =>
        cases he
        rintro (⟨hcalm, a', hlt, hin, hw, he⟩ | ⟨-, st, -, he⟩)
        · cases he
          exact hout (by simp [UserMem.accessible, hlt, (hv hcalm).2 _ hin, hw])
        · cases he
    · unfold writeByte at h
      split at h
      · cases h
        exact hv
      · cases h
  valid {esp pt g} v hv := by
    refine ⟨fun e he => ?_, fun _ v' h hcalm => ?_⟩
    · unfold isPtValid at he
      split at he
      · cases he
      · cases he
        rintro (⟨-, a, -, -, -, he⟩ | ⟨-, st, hst, he⟩)
        · cases he
        · cases he
          exact hst rfl
    · obtain ⟨hturns, hpages⟩ := hv hcalm
      have hspec := check_spec ((isPtValid_calm hturns).mp h)
      refine ⟨hspec.turns.trans hturns, fun p hp => ?_⟩
      obtain ⟨hin, hw⟩ := hpages p hp
      exact ⟨(hspec.present p).mpr (.inl hin), (hspec.writable p hin).trans hw⟩
  past h := by
    rintro (⟨-, a, hlt, -, -, he⟩ | ⟨-, st, -, he⟩)
    · cases he
      omega
    · cases he
  killed := by
    rintro (⟨-, a, -, -, -, he⟩ | ⟨-, st, hst, he⟩)
    · cases he
    · cases he
      exact hst rfl

theorem syscall_fault_present {a : Nat} (hcalm : u.turns = []) (hlt : a < physBase)
    (hin : u.present (a / 4096) = true) (hw : u.writable (a / 4096) = true) :
    syscallHandler k esp u ≠ .error (.fault a) := by
  have h : Base (Kept u) (Unwanted u False) := base_unwanted
  have hend : ∀ st, ¬ Unwanted u False (.ended st) := by
    rintro st (⟨-, a, -, -, -, he⟩ | ⟨hfalse, -⟩)
    · cases he
    · exact hfalse
  have hhandler : Guarded (Kept u) (Unwanted u False) (syscallHandler k esp) :=
    h.valid.bind fun _ => h.readWord.bind fun _ => h.dispatch fun _ => hend
  intro hfault
  exact (hhandler u fun _ => ⟨hcalm, fun _ hp => ⟨hp, rfl⟩⟩).1 _ hfault
    (.inl ⟨hcalm, a, hlt, hin, hw, rfl⟩)

theorem syscall_fault_taken (h : u.Readable esp) (hne : esp ≠ 0) :
    syscallHandler k esp { u with turns := [.takes [esp / 4096]] } = .error (.fault esp) := by
  have hread : Readable { u with turns := [.takes [esp / 4096]] } esp := h
  obtain ⟨u', hcheck⟩ := @Readable.check _ esp _ false hread hne (by simp)
  obtain ⟨u₁, hok, hout⟩ := isPtValid_taken hcheck rfl
  have hbyte : readByte esp u₁ = .error (.fault esp) := if_neg (by simp [hout])
  rw [syscallHandler, bind_ok hok, readWord, bind_error (bind_error hbyte)]

theorem readWord_ok {a w : Nat} (h : readWord a u = .ok (w, v)) : w = u.word a ∧ v = u := by
  obtain ⟨b₀, v₀, h₀, h⟩ := bind_eq_ok.mp h
  obtain ⟨-, rfl, rfl⟩ := readByte_ok h₀
  obtain ⟨b₁, v₁, h₁, h⟩ := bind_eq_ok.mp h
  obtain ⟨-, rfl, rfl⟩ := readByte_ok h₁
  obtain ⟨b₂, v₂, h₂, h⟩ := bind_eq_ok.mp h
  obtain ⟨-, rfl, rfl⟩ := readByte_ok h₂
  obtain ⟨b₃, v₃, h₃, h⟩ := bind_eq_ok.mp h
  obtain ⟨-, rfl, rfl⟩ := readByte_ok h₃
  cases h
  exact ⟨rfl, rfl⟩

theorem syscall_status {st : Int} (hst : syscallHandler k esp u = .error (.ended st)) :
    st = -1 ∨ u.word esp = 1 := by
  by_contra hother
  rw [not_or] at hother
  unfold syscallHandler at hst
  cases hc : u.check esp esp false with
  | none =>
    rw [bind_error (isPtValid_error hc)] at hst
    cases hst
    exact hother.1 rfl
  | some u₁ =>
    rw [bind_ok (isPtValid_ok hc)] at hst
    have hbase : Base (Kept u₁.lose) (Unwanted u₁.lose True) := base_unwanted
    have hkept : Kept u₁.lose u₁.lose := fun h => ⟨h, fun _ hp => ⟨hp, rfl⟩⟩
    cases hr : readWord esp u₁.lose with
    | error e =>
      rw [bind_error hr] at hst
      cases hst
      exact (hbase.readWord u₁.lose hkept).1 _ hr (.inr ⟨trivial, st, hother.1, rfl⟩)
    | ok r =>
      -- the check has not changed the number
      obtain ⟨hnum, hmem⟩ := readWord_ok hr
      have hbyte : u₁.lose.byte = u.byte := by
        rw [lose_byte]
        exact funext fun a => ((check_spec hc).byte a).trans (if_neg (by simp))
      have hsame : u₁.lose.word esp = u.word esp := by rw [word, hbyte, word]
      rw [bind_ok hr, hmem] at hst
      refine (hbase.dispatch (fun h => ?_) u₁.lose hkept).1 _ hst (.inr ⟨trivial, st, hother.1, rfl⟩)
      exact absurd (hsame.symm.trans (hnum.symm.trans h)) hother.2

end Results

/-- Pages with the given bytes; those before and after them are not there. -/
def pages (present : List Nat) (byte : Nat → UInt8) : UserMem where
  present p := p ∈ present
  writable _ := true
  entry _ := none
  byte := byte
  turns := []

/-- A stack with `exec` as the call and the address 0x8048fff as its argument, and a page full of
letters before an address where no page is. -/
def execAtEdge : UserMem :=
  pages [0x8048, 0xbffff] fun a =>
    if a = 0xbfffff00 then 2
    else if a = 0xbfffff04 then 0xff
    else if a = 0xbfffff05 then 0x8f
    else if a = 0xbfffff06 then 0x04
    else if a = 0xbfffff07 then 0x08
    else if a / 4096 = 0x8048 then 97
    else 0

end Pintos.Syscall
