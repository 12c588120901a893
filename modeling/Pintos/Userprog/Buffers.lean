import Mathlib.Tactic.Ring
import Pintos.Userprog.SyscallMemory

/-!
# The buffers of `read` and `write` (`userprog/syscall.c`)

`sys_read` goes over the pages of its buffer before `file_read` stores to it; where the loop ends is
the sum of two words of the user's, which may wrap around. `sys_write` to the console cuts the buffer
into pieces of 300 bytes: `char_buffer` moves on by `pos` each time, and `putbuf` gets `buffer`.
-/

namespace Pintos.Syscall

open Lib List

/-! ## Reading from a file -/

/-- When the loop of `sys_read` checks the `j`th page from `p` on, the page is there and writable. -/
def PageChecked (u : UserMem) (esp p j : Nat) : Prop :=
  ∃ v w, checkPages esp p j u = .ok ((), v) ∧ v.check esp (p + 4096 * j) true = some w ∧
    w.present ((p + 4096 * j) / 4096) = true ∧ w.writable ((p + 4096 * j) / 4096) = true

/-- Before `file_read` stores to the buffer, the pages of all the bytes it stores have been checked
to be user pages and mapped writable, each when its turn came; else the process has ended. -/
def ReadChecked (k : Kernel) (u : UserMem) (esp fd buffer size : Nat) (file : OpenFile) : Prop :=
  (∃ u', checkPages esp (buffer / 4096 * 4096) (bufferPages buffer size) u = .ok ((), u') ∧
    ∀ i < moved size file.rest.length, buffer + i < physBase ∧
      ∃ j < bufferPages buffer size, (buffer + i) / 4096 = buffer / 4096 + j ∧
        PageChecked u esp (buffer / 4096 * 4096) j) ∨
  (checkPages esp (buffer / 4096 * 4096) (bufferPages buffer size) u = .error (.ended (-1)) ∧
    sysRead k esp fd buffer size u = .error (.ended (-1)))

section Read

variable {k : Kernel} {u : UserMem} {esp fd buffer size : Nat} {file : OpenFile}

theorem moved_le {left : Nat} : moved size left ≤ size := by
  unfold moved
  split
  · exact Nat.min_le_left _ _
  · exact Nat.zero_le _

theorem sysRead_file (hfile : k.fileOf fd = some file) :
    sysRead k esp fd buffer size = (do
      checkPages esp (buffer / 4096 * 4096) (bufferPages buffer size)
      writeBytes buffer (file.rest.take (moved size file.rest.length))) := by
  have hfd : fd ≠ 0 := by
    rintro rfl
    cases hfile
  rw [sysRead, if_neg hfd, hfile]

theorem pageChecked_of_ok {p n j : Nat} {u' : UserMem}
    (h : checkPages esp p n u = .ok ((), u')) (hj : j < n) :
    p + 4096 * j < physBase ∧ PageChecked u esp p j := by
  induction n generalizing p u j with
  | zero => omega
  | succ n ih =>
    obtain ⟨u₁, hcheck, hwritable, h⟩ := checkPages_succ h
    cases j with
    | zero =>
      have hspec := UserMem.check_spec hcheck
      exact ⟨hspec.lt, u, u₁, rfl, hcheck, (hspec.present _).mpr (.inr rfl), hwritable⟩
    | succ j =>
      obtain ⟨hlt, v, w, hok, hpage⟩ := ih h (Nat.lt_of_succ_lt_succ hj)
      have hshift : p + 4096 + 4096 * j = p + 4096 * (j + 1) := by omega
      have hw : isWritable p u₁.lose = .ok (true, u₁.lose) := by
        rw [isWritable, UserMem.lose_writable, hwritable]
      rw [hshift] at hlt hpage
      refine ⟨hlt, v, w, ?_, hpage⟩
      rw [checkPages, bind_ok (isPtValid_ok hcheck), bind_ok hw, if_pos rfl]
      exact hok

/-- When the end of the buffer wraps around and the size is one that `file_read` takes for positive,
no page is looked at. -/
theorem bufferPages_wrapped (hbuffer : buffer < 4294967296) (hend : 4294967296 ≤ buffer + size)
    (hsize : size < 2147483648) : bufferPages buffer size = 0 := by
  unfold bufferPages
  omega

theorem readChecked_of_ok (hfile : k.fileOf fd = some file)
    (h : ∀ u', checkPages esp (buffer / 4096 * 4096) (bufferPages buffer size) u = .ok ((), u') →
      ∀ i < moved size file.rest.length, buffer + i < physBase ∧
        ∃ j < bufferPages buffer size, (buffer + i) / 4096 = buffer / 4096 + j ∧
          PageChecked u esp (buffer / 4096 * 4096) j) :
    ReadChecked k u esp fd buffer size file := by
  cases hc : checkPages esp (buffer / 4096 * 4096) (bufferPages buffer size) u with
  | error e =>
    cases checkPages_error hc
    refine .inr ⟨hc, ?_⟩
    rw [sysRead_file hfile, bind_error hc]
  | ok r => exact .inl ⟨r.2, hc, h r.2 hc⟩

theorem readChecked_of_end (hfile : k.fileOf fd = some file) (hend : buffer + size < 4294967296) :
    ReadChecked k u esp fd buffer size file := by
  refine readChecked_of_ok hfile fun u' hc i hi => ?_
  have hi := Nat.lt_of_lt_of_le hi moved_le
  have hj : (buffer + i) / 4096 - buffer / 4096 < bufferPages buffer size := by
    unfold bufferPages
    omega
  obtain ⟨hlt, hpage⟩ := pageChecked_of_ok hc hj
  have hbase : physBase = 786432 * 4096 := by decide
  exact ⟨by omega, _, hj, by omega, hpage⟩

theorem readChecked_of_nothing (hfile : k.fileOf fd = some file)
    (hnone : moved size file.rest.length = 0) : ReadChecked k u esp fd buffer size file := by
  refine readChecked_of_ok hfile fun u' _ => ?_
  rw [hnone]
  nofun

theorem not_readChecked_of_wrapped (hbuffer : buffer < 4294967296)
    (hend : 4294967296 ≤ buffer + size) (hsome : moved size file.rest.length ≠ 0) :
    ¬ ReadChecked k u esp fd buffer size file := by
  have hsize : size < 2147483648 := by
    by_contra hlarge
    exact hsome (if_neg hlarge)
  have hpages := bufferPages_wrapped hbuffer hend hsize
  rintro (⟨u', -, hall⟩ | ⟨hended, -⟩)
  · obtain ⟨-, j, hj, -⟩ := hall 0 (by omega)
    omega
  · rw [hpages] at hended
    cases hended

end Read

/-- The bytes that `sys_read` stores from an open file have been checked if and only if the end of
the buffer does not wrap around or there is nothing to store. -/
theorem readChecked_iff (k : Kernel) (u : UserMem) (esp fd : Nat) (buffer size : UInt32)
    (file : OpenFile) (hfile : k.fileOf fd = some file) :
    ReadChecked k u esp fd buffer.toNat size.toNat file ↔
      buffer.toNat + size.toNat < 4294967296 ∨ 2147483648 ≤ size.toNat ∨ file.rest = [] := by
  have hbuffer : buffer.toNat < 4294967296 := buffer.toNat_lt
  have hnothing : moved size.toNat file.rest.length = 0 ↔
      size.toNat = 0 ∨ 2147483648 ≤ size.toNat ∨ file.rest = [] := by
    rw [← length_eq_zero_iff, moved]
    split <;> omega
  constructor
  · intro h
    by_contra hnot
    rw [not_or, Nat.not_lt] at hnot
    refine not_readChecked_of_wrapped hbuffer hnot.1 ?_ h
    rw [Ne, hnothing, not_or]
    exact ⟨by omega, hnot.2⟩
  · rintro (hend | hrest)
    · exact readChecked_of_end hfile hend
    · exact readChecked_of_nothing hfile (hnothing.mpr (.inr hrest))

/-- The page below `PHYS_BASE` is there and writable, and no other. -/
def lastPage : UserMem where
  present p := p == 786431
  writable p := p == 786431
  entry _ := none
  byte _ := 0
  turns := []

/-- Descriptor 2 is open, with two bytes before the end of the file. -/
def twoBytes : Kernel := ⟨[], false, fun fd => if fd = 2 then some ⟨[7, 8], 2⟩ else none, 0⟩

theorem readChecked_two_bytes :
    twoBytes.fileOf 2 = some ⟨[7, 8], 2⟩ ∧
      ReadChecked twoBytes lastPage 3221225472 2 3221225000 2 ⟨[7, 8], 2⟩ :=
  ⟨rfl, (readChecked_iff twoBytes lastPage 3221225472 2 3221225000 2 ⟨[7, 8], 2⟩ rfl).mpr
    (.inl (by decide))⟩

/-- The last user byte and the first kernel byte: 0xbfffffff + 0x40000001 is 0, so no page is
checked, and the second byte is stored to kernel memory. -/
theorem read_past_physBase :
    twoBytes.fileOf 2 = some ⟨[7, 8], 2⟩ ∧ bufferPages 3221225471 1073741825 = 0 ∧
      sysRead twoBytes 3221225472 2 3221225471 1073741825 lastPage = .error (.fault 3221225472) ∧
      ¬ ReadChecked twoBytes lastPage 3221225472 2 3221225471 1073741825 ⟨[7, 8], 2⟩ :=
  ⟨rfl, rfl, rfl, not_readChecked_of_wrapped (by decide) (by decide) (by decide)⟩

/-! ## Writing to the console -/

/-- The `n` bytes from `a` on are in user pages that are present. -/
def UserMem.Available (u : UserMem) (a n : Nat) : Prop := ∀ i < n, u.accessible (a + i) = true

/-- The `n` bytes at `a`. -/
def UserMem.bytes (u : UserMem) (a n : Nat) : List UInt8 := (List.range n).map fun i => u.byte (a + i)

/-- `sys_write` prints the buffer: its bytes in order, once each, with no address validated outside
it, and `size` returned. -/
def PrintsBuffer (u : UserMem) (esp buffer size : Nat) : Prop :=
  ∃ p u', sysWriteConsole esp buffer size u = .ok (p, u') ∧ p.output = u.bytes buffer size ∧
    (∀ a ∈ p.checked, buffer ≤ a ∧ a < buffer + size) ∧ p.eax = size

/-- The bytes that a round sends. -/
def chunk (left : Int) : Nat := if 300 < left then 300 else (left % 4294967296).toNat

section Console

variable {u u' : UserMem} {esp buffer size fuel pos charBuffer a n : Nat} {left : Int}
  {r : List UInt8 × List Nat}

theorem UserMem.bytes_succ : u.bytes a (n + 1) = u.byte a :: u.bytes (a + 1) n := by
  simp only [bytes, range_succ_eq_map, map_cons, map_map, Nat.add_zero]
  refine congrArg _ (map_congr_left fun i _ => congrArg u.byte ?_)
  simp only [Nat.succ_eq_add_one]
  omega

theorem UserMem.bytes_congr (h : ∀ i < n, u.byte (a + i) = u'.byte (a + i)) :
    u.bytes a n = u'.bytes a n :=
  map_congr_left fun i hi => h i (mem_range.mp hi)

theorem UserMem.available_succ :
    u.Available a (n + 1) ↔ u.accessible a = true ∧ u.Available (a + 1) n := by
  have hshift : ∀ i, a + 1 + i = a + (i + 1) := fun i => by omega
  refine ⟨fun h => ⟨h 0 (by omega), fun i hi => hshift i ▸ h (i + 1) (by omega)⟩, ?_⟩
  rintro ⟨hfirst, hrest⟩ (_ | i) hi
  · exact hfirst
  · exact hshift i ▸ hrest i (by omega)

theorem UserMem.Available.mono {m : Nat} (h : u.Available a n) (hle : m ≤ n) : u.Available a m :=
  fun i hi => h i (by omega)

/-- Bytes that are there are there after a check, and the same. -/
theorem UserMem.Checked.available {pt : Nat} {g : Bool} (h : Checked u u' esp pt g)
    (ha : u.Available a n) : u'.Available a n ∧ u'.bytes a n = u.bytes a n := by
  have hin : ∀ i < n, a + i < physBase ∧ u.present ((a + i) / 4096) = true := by
    intro i hi
    have hacc := ha i hi
    simpa only [UserMem.accessible, Bool.and_eq_true, decide_eq_true_eq] using hacc
  constructor
  · intro i hi
    obtain ⟨hlt, hpage⟩ := hin i hi
    simp [UserMem.accessible, hlt, (h.present _).mpr (.inl hpage)]
  · refine UserMem.bytes_congr fun i hi => (h.byte _).trans (if_neg ?_)
    rintro ⟨hout, -, hpage⟩
    rw [← hpage, (hin i hi).2] at hout
    cases hout

theorem putbuf_ok_iff {out : List UInt8} :
    putbuf a n u = .ok (out, u') ↔ u.Available a n ∧ out = u.bytes a n ∧ u' = u := by
  induction n generalizing a out u' with
  | zero =>
    constructor
    · intro h
      cases h
      exact ⟨nofun, rfl, rfl⟩
    · rintro ⟨-, rfl, rfl⟩
      rfl
  | succ n ih =>
    rw [putbuf, UserMem.available_succ, UserMem.bytes_succ]
    constructor
    · intro h
      obtain ⟨b, u₁, hb, h⟩ := bind_eq_ok.mp h
      obtain ⟨hin, rfl, rfl⟩ := readByte_ok hb
      obtain ⟨bs, u₂, hbs, h⟩ := bind_eq_ok.mp h
      obtain ⟨hall, rfl, rfl⟩ := ih.mp hbs
      cases h
      exact ⟨⟨hin, hall⟩, rfl, rfl⟩
    · rintro ⟨⟨hin, hall⟩, rfl, rfl⟩
      have hfirst : readByte a u' = .ok (u'.byte a, u') := if_pos hin
      rw [bind_ok hfirst, bind_ok (ih.mpr ⟨hall, rfl, rfl⟩)]
      rfl

theorem consoleLoop_done (h : size ≤ pos) :
    consoleLoop esp buffer size fuel pos charBuffer left u = .ok (([], []), u) := by
  cases fuel with
  | zero => rfl
  | succ fuel =>
    rw [consoleLoop, if_neg (by omega)]
    rfl

/-- A round of the loop: a validation, a piece of the buffer's start, and the rounds after it. -/
theorem consoleLoop_round (hpos : pos < size) :
    consoleLoop esp buffer size (fuel + 1) pos charBuffer left u = .ok (r, u') ↔
      ∃ u₁, isPtValid esp ((charBuffer + pos) % 4294967296) true u = .ok ((), u₁) ∧
        u₁.Available buffer (chunk left) ∧
        ∃ rest, consoleLoop esp buffer size fuel (pos + 300) ((charBuffer + pos) % 4294967296)
            (if 300 < left then left - 300 else 0) u₁ = .ok (rest, u') ∧
          r = (u₁.bytes buffer (chunk left) ++ rest.1,
            (charBuffer + pos) % 4294967296 :: rest.2) := by
  have hloop : consoleLoop esp buffer size (fuel + 1) pos charBuffer left = (do
      isPtValid esp ((charBuffer + pos) % 4294967296) true
      let out ← putbuf buffer (chunk left)
      let rest ← consoleLoop esp buffer size fuel (pos + 300) ((charBuffer + pos) % 4294967296)
        (if 300 < left then left - 300 else 0)
      return (out ++ rest.1, (charBuffer + pos) % 4294967296 :: rest.2)) := by
    rw [consoleLoop, if_pos hpos, chunk]
    split <;> rfl
  rw [hloop]
  constructor
  · intro h
    obtain ⟨_, u₁, hvalid, h⟩ := bind_eq_ok.mp h
    obtain ⟨out, u₂, hput, h⟩ := bind_eq_ok.mp h
    obtain ⟨rest, u₃, hrest, hr⟩ := bind_eq_ok.mp h
    obtain ⟨hall, rfl, rfl⟩ := putbuf_ok_iff.mp hput
    cases hr
    exact ⟨_, hvalid, hall, rest, hrest, rfl⟩
  · rintro ⟨u₁, hvalid, hall, rest, hrest, rfl⟩
    rw [bind_ok hvalid, bind_ok (putbuf_ok_iff.mpr ⟨hall, rfl, rfl⟩), bind_ok hrest]
    rfl

/-- From the third round on the addresses run ahead of the buffer: `char_buffer` has moved on by
150 `m` (`m` - 1), and leaves the buffer before `pos` does. -/
theorem consoleLoop_outside {m : Nat} (hm : 2 ≤ m) (hpos : 300 * m < size)
    (hend : buffer + size ≤ physBase) (hin : 150 * (m * (m - 1)) < size)
    (h : consoleLoop esp buffer size fuel (300 * m) (buffer + 150 * (m * (m - 1))) left u = .ok (r, u'))
    (hfuel : size ≤ 300 * m + 300 * fuel) : ∃ a ∈ r.2, buffer + size ≤ a := by
  have hbase := physBase_eq
  induction fuel generalizing m left u r with
  | zero => omega
  | succ fuel ih =>
    -- so many rounds have not passed that the address could wrap around
    have hfew : m < 10000 := by
      by_contra hmany
      have hlarge : 10000 * 9999 ≤ m * (m - 1) := Nat.mul_le_mul (by omega) (by omega)
      omega
    have hnext : buffer + 150 * (m * (m - 1)) + 300 * m = buffer + 150 * ((m + 1) * m) := by
      obtain ⟨j, rfl⟩ : ∃ j, m = j + 1 := ⟨m - 1, by omega⟩
      rw [Nat.add_sub_cancel]
      ring
    have hwrap : (buffer + 150 * (m * (m - 1)) + 300 * m) % 4294967296 =
        buffer + 150 * ((m + 1) * m) := by
      rw [← hnext]
      exact Nat.mod_eq_of_lt (by omega)
    obtain ⟨u₁, -, -, rest, hrest, rfl⟩ := (consoleLoop_round hpos).mp h
    rw [hwrap] at hrest ⊢
    by_cases hout : 150 * ((m + 1) * m) < size
    · have htwice : 2 * (m + 1) ≤ (m + 1) * m := by
        rw [Nat.mul_comm 2]
        exact Nat.mul_le_mul_left _ hm
      obtain ⟨a, ha, hge⟩ := ih (by omega) (by omega) hout hrest (by omega)
      exact ⟨a, mem_cons_of_mem _ ha, hge⟩
    · exact ⟨_, mem_cons_self, by omega⟩

theorem size_le_of_printsBuffer (hread : ∀ i < size, u.Readable (buffer + i))
    (h : PrintsBuffer u esp buffer size) : size ≤ 600 := by
  by_contra hlong
  obtain ⟨p, u', hp, -, hin, -⟩ := h
  have hbase := physBase_eq
  have hend : buffer + size ≤ physBase := by
    have hlast := (hread (size - 1) (by omega)).1
    omega
  obtain ⟨r, u₀, hloop, hr⟩ := bind_eq_ok.mp hp
  cases hr
  obtain ⟨fuel, hfuel⟩ : ∃ fuel, size / 300 + 1 = fuel + 1 + 1 := ⟨size / 300 - 1, by omega⟩
  rw [hfuel] at hloop
  obtain ⟨u₁, -, -, r₁, hloop₁, rfl⟩ := (consoleLoop_round (by omega)).mp hloop
  obtain ⟨u₂, -, -, r₂, hloop₂, rfl⟩ := (consoleLoop_round (by omega)).mp hloop₁
  have hcb : ((buffer + 0) % 4294967296 + (0 + 300)) % 4294967296 =
      buffer + 150 * (2 * (2 - 1)) := by omega
  rw [hcb] at hloop₂ hin
  obtain ⟨a, ha, hge⟩ := consoleLoop_outside (m := 2) (le_refl 2) (by omega) hend (by omega) hloop₂
    (by omega)
  have := hin a (mem_cons_of_mem _ (mem_cons_of_mem _ ha))
  omega

theorem chunk_bmod (hle : size ≤ 600) : chunk (Int.bmod size 4294967296) = min size 300 := by
  have hleft : Int.bmod size 4294967296 = size := by
    rw [Int.bmod_def]
    omega
  rw [hleft, chunk]
  split <;> omega

/-- What is printed has been there after the check of its start. -/
theorem available_of_printsBuffer (hpos : 0 < size) (hlt : buffer < physBase)
    (h : PrintsBuffer u esp buffer size) :
    ∃ u₁, isPtValid esp buffer true u = .ok ((), u₁) ∧
      u₁.Available buffer (chunk (Int.bmod size 4294967296)) := by
  obtain ⟨p, u', hp, -, -, -⟩ := h
  obtain ⟨r, u₀, hloop, -⟩ := bind_eq_ok.mp hp
  obtain ⟨u₁, hvalid, hall, -⟩ := (consoleLoop_round hpos).mp hloop
  have hbase := physBase_eq
  have hstart : (buffer + 0) % 4294967296 = buffer := by omega
  rw [hstart] at hvalid
  exact ⟨u₁, hvalid, hall⟩

theorem not_printsBuffer_taken (hpos : 0 < size) (hsize : size < 4294967296)
    (hlt : buffer < physBase) (hturns : u.turns = [.takes [buffer / 4096]]) :
    ¬ PrintsBuffer u esp buffer size := by
  intro h
  obtain ⟨u₂, hvalid, hall⟩ := available_of_printsBuffer hpos hlt h
  obtain ⟨u₁, hcheck, -⟩ := check_of_isPtValid hvalid
  obtain ⟨u₃, hok, hout⟩ := isPtValid_taken hcheck hturns
  rw [hvalid] at hok
  cases hok
  have hchunk : 0 < chunk (Int.bmod size 4294967296) := by
    rw [chunk, Int.bmod_def]
    split <;> split <;> omega
  have hfirst := hall 0 hchunk
  rw [Nat.add_zero, hout] at hfirst
  cases hfirst

theorem consoleLoop_one (hpos : 0 < size) (hle : size ≤ 300) (hlt : buffer < physBase)
    {u₁ : UserMem} (hvalid : isPtValid esp buffer true u = .ok ((), u₁))
    (hall : u₁.Available buffer size) :
    consoleLoop esp buffer size (fuel + 1) 0 buffer size u =
      .ok ((u₁.bytes buffer size, [buffer]), u₁) := by
  have hbase := physBase_eq
  have hstart : (buffer + 0) % 4294967296 = buffer := by omega
  have hchunk : chunk size = size := by
    unfold chunk
    split <;> omega
  refine (consoleLoop_round hpos).mpr ⟨u₁, ?_, ?_, ([], []), consoleLoop_done (by omega), ?_⟩
  · rw [hstart]
    exact hvalid
  · rw [hchunk]
    exact hall
  · rw [hstart, hchunk, append_nil]

theorem consoleLoop_two (hcalm : u.turns = []) (hmore : 300 < size) (hle : size ≤ 600)
    (hread : ∀ i < size, u.Readable (buffer + i)) {u₁ : UserMem}
    (hcheck : u.check esp buffer true = some u₁) (hall : u₁.Available buffer 300) :
    ∃ u₂, consoleLoop esp buffer size (fuel + 1 + 1) 0 buffer size u =
      .ok ((u₁.bytes buffer 300 ++ u₁.bytes buffer (size - 300), [buffer, buffer + 300]), u₂) := by
  have hbase := physBase_eq
  have hlast := hread (size - 1) (by omega)
  have hstart : (buffer + 0) % 4294967296 = buffer := by
    have := hlast.1
    omega
  have hnext : (buffer + (0 + 300)) % 4294967296 = buffer + 300 := by
    have := hlast.1
    omega
  have hspec := UserMem.check_spec hcheck
  have hcalm₁ : u₁.turns = [] := hspec.turns.trans hcalm
  have hsecond : u₁.Readable (buffer + 300) := by
    refine (hread 300 hmore).imp_right (Or.imp (fun hin => ?_) fun hentry => ?_)
    · exact (hspec.present _).mpr (.inl hin)
    · rw [hspec.entry]
      exact hentry
  obtain ⟨u₂, hcheck₂⟩ := @UserMem.Readable.check u₁ esp _ true hsecond (by omega) (by simp [hcalm₁])
  obtain ⟨hrest, hbytes⟩ :=
    (UserMem.check_spec hcheck₂).available (hall.mono (show size - 300 ≤ 300 by omega))
  have hfirst : chunk size = 300 := if_pos (by omega)
  have hremain : (if (300 : Int) < size then (size : Int) - 300 else 0) = (size - 300 : Nat) := by
    rw [if_pos (by omega)]
    omega
  have hchunk : chunk (size - 300 : Nat) = size - 300 := by
    unfold chunk
    split <;> omega
  refine ⟨u₂, (consoleLoop_round (by omega)).mpr ⟨u₁, ?_, ?_,
    (u₁.bytes buffer (size - 300), [buffer + 300]), ?_, ?_⟩⟩
  · rw [hstart]
    exact (isPtValid_calm hcalm).mpr hcheck
  · rw [hfirst]
    exact hall
  · rw [hstart, hremain]
    refine (consoleLoop_round (by omega)).mpr ⟨u₂, ?_, ?_, ([], []), consoleLoop_done (by omega), ?_⟩
    · rw [hnext]
      exact (isPtValid_calm hcalm₁).mpr hcheck₂
    · rw [hchunk]
      exact hrest
    · rw [hnext, hchunk, hbytes, append_nil]
  · rw [hstart, hfirst]

theorem bytes_repeated (hle : size ≤ 600) :
    (List.range size).map (fun i => u.byte (buffer + i % 300)) =
      u.bytes buffer (min size 300) ++ u.bytes buffer (size - 300) := by
  have hsplit : size = min size 300 + (size - 300) := by omega
  have hrange : List.range size =
      List.range (min size 300) ++ (List.range (size - 300)).map (min size 300 + ·) := by
    conv_lhs => rw [hsplit]
    exact range_add
  rw [hrange, map_append, map_map]
  refine congrArg₂ (· ++ ·) (map_congr_left fun i hi => ?_) (map_congr_left fun i hi => ?_)
  · have hlt := mem_range.mp hi
    rw [Nat.mod_eq_of_lt (by omega)]
  · have hlt := mem_range.mp hi
    have hmod : (min size 300 + i) % 300 = i := by omega
    simp only [Function.comp, hmod]

theorem sysWriteConsole_ok (hcalm : u.turns = []) (hpos : 0 < size) (hle : size ≤ 600)
    (hread : ∀ i < size, u.Readable (buffer + i)) {u₁ : UserMem}
    (hcheck : u.check esp buffer true = some u₁) (hall : u₁.Available buffer (min size 300)) :
    ∃ checked u', sysWriteConsole esp buffer size u =
        .ok (⟨(List.range size).map fun i => u₁.byte (buffer + i % 300), checked, size⟩, u') ∧
      ∀ a ∈ checked, buffer ≤ a ∧ a < buffer + size := by
  have hleft : Int.bmod size 4294967296 = size := by
    rw [Int.bmod_def]
    omega
  rw [bytes_repeated hle]
  by_cases hone : size ≤ 300
  · have hmin : min size 300 = size := by omega
    have hnone : size - 300 = 0 := by omega
    rw [hmin] at hall ⊢
    have hlt : buffer < physBase := (hread 0 hpos).1
    have hloop := @consoleLoop_one u esp buffer size (size / 300) hpos hone hlt _
      ((isPtValid_calm hcalm).mpr hcheck) hall
    rw [← hleft] at hloop
    refine ⟨[buffer], u₁, ?_, ?_⟩
    · have hend : u₁.bytes buffer 0 = [] := rfl
      rw [sysWriteConsole, bind_ok hloop, hnone, hend, append_nil]
      rfl
    · rw [forall_mem_singleton]
      omega
  · have hmin : min size 300 = 300 := by omega
    obtain ⟨fuel, hfuel⟩ : ∃ fuel, size / 300 + 1 = fuel + 1 + 1 := ⟨size / 300 - 1, by omega⟩
    rw [hmin] at hall ⊢
    obtain ⟨u₂, hloop⟩ :=
      @consoleLoop_two u esp buffer size fuel hcalm (by omega) hle hread _ hcheck hall
    rw [← hleft, ← hfuel] at hloop
    refine ⟨[buffer, buffer + 300], u₂, ?_, ?_⟩
    · rw [sysWriteConsole, bind_ok hloop]
      rfl
    · simp only [mem_cons, not_mem_nil, or_false, forall_eq_or_imp, forall_eq]
      omega

/-- What the check of the start changes, by the memory before it. -/
theorem started_iff {u₁ : UserMem} (hcheck : u.check esp buffer true = some u₁) (hle : size ≤ 600)
    (hread : ∀ i < size, u.Readable (buffer + i)) :
    u₁.Available buffer (min size 300) ∧
      (∀ i < size, u.byte (buffer + i) = u₁.byte (buffer + i % 300)) ↔
    (∀ i < min size 300, (buffer + i) / 4096 ≠ buffer / 4096 →
      u.present ((buffer + i) / 4096) = true) ∧
    (u.present (buffer / 4096) = false → (esp + 4294967264) % 4294967296 ≤ buffer →
      ∀ i < min size 300, (buffer + i) / 4096 = buffer / 4096 → u.byte (buffer + i) = 0) ∧
    ∀ i < size, 300 ≤ i → u.byte (buffer + i) = u.byte (buffer + (i - 300)) := by
  have hspec := UserMem.check_spec hcheck
  have hacc : ∀ i < min size 300, u₁.accessible (buffer + i) = true ↔
      ((buffer + i) / 4096 ≠ buffer / 4096 → u.present ((buffer + i) / 4096) = true) := by
    intro i hi
    have hlt := (hread i (by omega)).1
    simp only [UserMem.accessible, hlt, decide_true, Bool.true_and, hspec.present]
    tauto
  have hbyte : ∀ i, u.byte (buffer + i) = u₁.byte (buffer + i) ↔
      (u.present (buffer / 4096) = false → (esp + 4294967264) % 4294967296 ≤ buffer →
        (buffer + i) / 4096 = buffer / 4096 → u.byte (buffer + i) = 0) := by
    intro i
    rw [hspec.byte]
    simp only [Bool.true_and, decide_eq_true_eq]
    split
    · next hnew => exact ⟨fun h _ _ _ => h, fun h => h hnew.1 hnew.2.1 hnew.2.2⟩
    · next hnew => exact iff_of_true rfl fun hout hesp hpage => absurd ⟨hout, hesp, hpage⟩ hnew
  have hsame : (∀ i < size, u.byte (buffer + i) = u₁.byte (buffer + i % 300)) ↔
      (∀ i < min size 300, u.byte (buffer + i) = u₁.byte (buffer + i)) ∧
      ∀ i < size, 300 ≤ i → u.byte (buffer + i) = u.byte (buffer + (i - 300)) := by
    constructor
    · intro h
      have hfirst : ∀ i < min size 300, u.byte (buffer + i) = u₁.byte (buffer + i) := by
        intro i hi
        have hi' := h i (by omega)
        rwa [Nat.mod_eq_of_lt (by omega)] at hi'
      refine ⟨hfirst, fun i hi hge => ?_⟩
      have hmod : i % 300 = i - 300 := by omega
      rw [h i hi, hmod, hfirst (i - 300) (by omega)]
    · rintro ⟨hfirst, hrest⟩ i hi
      by_cases hlt : i < 300
      · rw [Nat.mod_eq_of_lt hlt]
        exact hfirst i (by omega)
      · have hmod : i % 300 = i - 300 := by omega
        rw [hrest i hi (by omega), hmod]
        exact hfirst (i - 300) (by omega)
  rw [hsame, forall₂_congr fun i _ => hbyte i]
  refine and_congr (forall₂_congr hacc) (and_congr_left fun _ => ?_)
  exact ⟨fun h hout hesp i hi => h i hi hout hesp, fun h i hi hout hesp => h hout hesp i hi⟩

end Console

/-- While no page is taken, a buffer that the process can read is printed as it is if and only if it
is empty, or it is not at 0 and has at most 600 bytes, of which those from the 300th on are those at
its start again, the others are in pages that are there, but for the page of the start, and what a new
page of the stack would clear is zero. Whatever is taken, only the empty buffer is printed. -/
theorem printsBuffer_iff (u : UserMem) (esp buffer size : Nat)
    (hread : ∀ i < size, u.Readable (buffer + i)) :
    (u.turns = [] → (PrintsBuffer u esp buffer size ↔
      size = 0 ∨ buffer ≠ 0 ∧ size ≤ 600 ∧
        (∀ i < min size 300, (buffer + i) / 4096 ≠ buffer / 4096 →
          u.present ((buffer + i) / 4096) = true) ∧
        (u.present (buffer / 4096) = false → (esp + 4294967264) % 4294967296 ≤ buffer →
          ∀ i < min size 300, (buffer + i) / 4096 = buffer / 4096 → u.byte (buffer + i) = 0) ∧
        ∀ i < size, 300 ≤ i → u.byte (buffer + i) = u.byte (buffer + (i - 300)))) ∧
    ((∀ turns, PrintsBuffer { u with turns := turns } esp buffer size) ↔ size = 0) := by
  by_cases hzero : size = 0
  · subst hzero
    have hnone : ∀ v : UserMem, PrintsBuffer v esp buffer 0 :=
      fun v => ⟨⟨[], [], 0⟩, v, rfl, rfl, nofun, rfl⟩
    exact ⟨fun _ => iff_of_true (hnone u) (.inl rfl), iff_of_true (fun _ => hnone _) rfl⟩
  have hpos : 0 < size := Nat.pos_of_ne_zero hzero
  have hfirst : u.Readable buffer := hread 0 hpos
  have hlt : buffer < physBase := hfirst.1
  refine ⟨fun hcalm => ?_, iff_of_false (fun h => ?_) hzero⟩
  · rw [or_iff_right hzero]
    constructor
    · intro h
      have hle := size_le_of_printsBuffer hread h
      obtain ⟨u₁, hvalid, hall⟩ := available_of_printsBuffer hpos hlt h
      have hcheck := (isPtValid_calm hcalm).mp hvalid
      rw [chunk_bmod hle] at hall
      obtain ⟨checked, u₂, hok, -⟩ := sysWriteConsole_ok hcalm hpos hle hread hcheck hall
      obtain ⟨p, u', hp, hout, -, -⟩ := h
      rw [hok] at hp
      cases hp
      refine ⟨(UserMem.check_spec hcheck).ne, hle, (started_iff hcheck hle hread).mp ⟨hall, ?_⟩⟩
      intro i hi
      exact (map_inj_left.mp hout i (mem_range.mpr hi)).symm
    · rintro ⟨hne, hle, hbytes⟩
      obtain ⟨u₁, hcheck⟩ := @UserMem.Readable.check u esp buffer true hfirst hne (by simp [hcalm])
      obtain ⟨hall, hsame⟩ := (started_iff hcheck hle hread).mpr hbytes
      obtain ⟨checked, u₂, hok, hin⟩ := sysWriteConsole_ok hcalm hpos hle hread hcheck hall
      refine ⟨_, u₂, hok, map_congr_left fun i hi => ?_, hin, rfl⟩
      exact (hsame i (mem_range.mp hi)).symm
  · have hlast := (hread (size - 1) (by omega)).1
    have hbase := physBase_eq
    exact not_printsBuffer_taken hpos (by omega) hlt rfl (h [.takes [buffer / 4096]])

/-- A page from 0x1000 on that holds a 1 and then zeros. -/
def onePage : UserMem where
  present p := p == 1
  writable _ := true
  entry _ := none
  byte a := if a = 4096 then 1 else 0
  turns := []

theorem onePage_readable {i : Nat} (hi : i < 4096) : onePage.Readable (4096 + i) := by
  have hpage : (4096 + i) / 4096 = 1 := by omega
  have hbase := physBase_eq
  refine ⟨by omega, .inl ?_⟩
  rw [hpage]
  rfl

theorem printsBuffer_one_byte :
    (∀ i < 1, onePage.Readable (4096 + i)) ∧ PrintsBuffer onePage 3221225472 4096 1 :=
  have hread : ∀ i < 1, onePage.Readable (4096 + i) := fun i hi => onePage_readable (by omega)
  ⟨hread, ((printsBuffer_iff onePage 3221225472 4096 1 hread).1 rfl).mpr
    (.inr ⟨by decide, by decide, by decide, by decide, by decide⟩)⟩

/-- 301 bytes, a 1 and 300 zeros, all present: the last byte sent is the 1 again. -/
theorem second_piece_repeats :
    (∀ i < 301, onePage.Readable (4096 + i)) ∧
      (∃ checked u', sysWriteConsole 3221225472 4096 301 onePage =
        .ok (⟨onePage.bytes 4096 300 ++ [1], checked, 301⟩, u')) ∧
      onePage.byte (4096 + 300) = 0 ∧ ¬ PrintsBuffer onePage 3221225472 4096 301 := by
  have hread : ∀ i < 301, onePage.Readable (4096 + i) := fun i hi => onePage_readable (by omega)
  have hcheck : onePage.check 3221225472 4096 true = some onePage := rfl
  have hall : onePage.Available 4096 (min 301 300) := by
    intro i hi
    have hpage : (4096 + i) / 4096 = 1 := by omega
    have hbase := physBase_eq
    simp only [UserMem.accessible, Bool.and_eq_true, decide_eq_true_eq, hpage]
    exact ⟨by omega, rfl⟩
  obtain ⟨checked, u', hok, -⟩ := sysWriteConsole_ok rfl (by decide) (by decide) hread hcheck hall
  have hout := @bytes_repeated onePage 4096 301 (by decide)
  rw [hout] at hok
  refine ⟨hread, ⟨checked, u', hok⟩, rfl, ?_⟩
  rintro ⟨p, u'', hp, hsame, -, -⟩
  rw [hok] at hp
  cases hp
  rw [← hout] at hsame
  have hlast : onePage.byte (4096 + 300 % 300) = onePage.byte (4096 + 300) :=
    map_inj_left.mp hsame 300 (mem_range.mpr (by decide))
  exact absurd hlast (by decide)

end Pintos.Syscall
