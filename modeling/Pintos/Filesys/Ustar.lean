import Mathlib.Algebra.Order.BigOperators.Group.List
import Mathlib.Algebra.Order.Ring.Nat
import Pintos.Filesys.Directory

/-!
# Headers of archives (`lib/ustar.c`)

A header is a sector of fields at fixed offsets. Numbers are octal, and the checksum counts its own
field as spaces, so that it can be computed before it is stored.
-/

namespace Pintos

open Lib List Mem

/-- `enum ustar_type`. -/
inductive UstarType
  | regular
  | directory
  | eof
  deriving DecidableEq, Repr

/-- The character of a type, `'0'` or `'5'`; `USTAR_EOF` is -1. -/
def UstarType.typeflag : UstarType → UInt8
  | .regular => 48
  | .directory => 53
  | .eof => 255

/-- `calculate_chksum`: the field from 148 on counts as spaces. -/
def calculateChksum (h : Mem) : Nat :=
  ((List.range 512).map fun i => if 148 ≤ i ∧ i < 156 then 32 else (h i).toNat).sum

/-- The loop of `strip_antisocial_prefixes`, in which `/`, `./` and `../` are dropped. -/
def stripLoop : Nat → List UInt8 → List UInt8
  | 0, s => s
  | fuel + 1, s =>
    if s.take 1 = [47] ∨ s.take 2 = [46, 47] ∨ s.take 3 = [46, 46, 47] then
      stripLoop fuel ((s.dropWhile (· ≠ 47)).drop 1)
    else s

/-- `strip_antisocial_prefixes`; each round drops a character at least. -/
def stripAntisocialPrefixes (s : List UInt8) : List UInt8 :=
  let s := stripLoop s.length s
  if s = [] ∨ s = [46, 46] then [46] else s

/-- `snprintf` of `v` with `%0<width>o`, where the digits are enough. -/
def octal (width v : Nat) : List UInt8 :=
  (List.range width).map fun i => UInt8.ofNat (48 + v / 8 ^ (width - 1 - i) % 8)

/-- A string that fits is stored in the field at `ofs`, with its terminator. -/
def storeField (h : Mem) (ofs : Nat) (s : List UInt8) : Mem :=
  h.write ofs (s.length + 1) fun i => s.getD i 0

/-- The header but for its checksum. -/
def ustarFields (header : Mem) (fileName : List UInt8) (type : UstarType) (size : Nat) : Mem :=
  let h := header.fill 0 512 0
  let h := storeField h 0 fileName
  let h := storeField h 100 (octal 7 (if type = .regular then 0o644 else 0o755))
  let h := storeField h 108 (octal 7 0)
  let h := storeField h 116 (octal 7 0)
  let h := storeField h 124 (octal 11 size)
  let h := storeField h 136 (octal 11 1136102400)
  let h := h.fill 156 1 type.typeflag
  let h := storeField h 257 [117, 115, 116, 97, 114]
  let h := h.fill 263 2 48
  let h := storeField h 297 [114, 111, 111, 116]
  storeField h 265 [114, 111, 111, 116]

/-- `ustar_make_header`, into the memory `header`; `none` if it fails, and for a type that is not one
of a file. -/
def ustarMakeHeader (fileName : List UInt8) (type : UstarType) (size : Nat) (header : Mem) :
    Option Mem :=
  if type = .eof then none
  else
    let fileName := stripAntisocialPrefixes fileName
    if 99 < fileName.length then none
    else
      let h := ustarFields header fileName type size
      some (storeField h 148 (octal 7 (calculateChksum h)))

/-- The loop of `parse_octal_field`, with the number of characters that are left. -/
def parseOctalLoop (s : Mem) : Nat → Nat → Nat → Option Nat
  | 0, _, _ => none
  | left + 1, ofs, value =>
    let c := s ofs
    if 48 ≤ c ∧ c ≤ 55 then
      if 4294967295 / 8 < value then none
      else parseOctalLoop s left (ofs + 1) (c.toNat - 48 + value * 8)
    else if c = 32 ∨ c = 0 then
      if 0 < ofs then some value else none
    else none

/-- `parse_octal_field`. -/
def parseOctalField (s : Mem) (size : Nat) : Option Nat := parseOctalLoop s size 0 0

/-- `is_all_zeros`. -/
def isAllZeros (block : Mem) (cnt : Nat) : Bool := (List.range cnt).all fun i => block i = 0

/-- What `ustar_parse_header` stores: `*file_name`, `*type` and `*size`. -/
structure UstarEntry where
  fileName : Option (List UInt8)
  type : UstarType
  size : Nat
  deriving DecidableEq, Repr

/-- The field from `ofs` on. -/
def fieldAt (h : Mem) (ofs : Nat) : Mem := fun i => h (ofs + i)

/-- `h->name`, which has a terminator when it is read. -/
def headerName (h : Mem) : List UInt8 := ((List.range 100).map h).takeWhile (· ≠ 0)

/-- `ustar_parse_header`. -/
def ustarParseHeader (h : Mem) : Except String UstarEntry :=
  if isAllZeros h 512 then .ok ⟨none, .eof, 0⟩
  else if (List.range 6).map (fieldAt h 257) ≠ [117, 115, 116, 97, 114, 0] then
    .error "not a ustar archive"
  else if h 263 ≠ 48 ∨ h 264 ≠ 48 then .error "invalid ustar version"
  else
    match parseOctalField (fieldAt h 148) 8 with
    | none => .error "corrupt chksum field"
    | some chksum =>
      if chksum ≠ calculateChksum h then .error "checksum mismatch"
      else if h 99 ≠ 0 ∨ h 345 ≠ 0 then .error "file name too long"
      else if h 156 ≠ 48 ∧ h 156 ≠ 53 then .error "unimplemented file type"
      else
        let fileName := stripAntisocialPrefixes (headerName h)
        if h 156 = 48 then
          match parseOctalField (fieldAt h 124) 12 with
          | none => .error "corrupt file size field"
          | some size =>
            if 2147483647 < size then .error "file too large"
            else .ok ⟨some fileName, .regular, size⟩
        else .ok ⟨some fileName, .directory, 0⟩

/-! ## Names -/

/-- A name that the loop of `strip_antisocial_prefixes` drops a prefix of. -/
def Antisocial (s : List UInt8) : Prop :=
  s.take 1 = [47] ∨ s.take 2 = [46, 47] ∨ s.take 3 = [46, 46, 47]

/-- A name that `strip_antisocial_prefixes` returns. -/
structure Social (s : List UInt8) : Prop where
  ne_nil : s ≠ []
  ne_up : s ≠ [46, 46]
  prefixes : ¬ Antisocial s

variable {s : List UInt8} {v width : Nat}

theorem Antisocial.ne_nil (h : Antisocial s) : s ≠ [] := by
  rintro rfl
  revert h
  simp [Antisocial]

theorem antisocial_iff :
    Antisocial s ↔ [47] <+: s ∨ [46, 47] <+: s ∨ [46, 46, 47] <+: s := by
  simp only [Antisocial, prefix_iff_eq_take, length_cons, length_nil, Nat.zero_add,
    Nat.reduceAdd, eq_comm]

theorem stripLoop_ends {fuel : Nat} (hfuel : s.length ≤ fuel) :
    ¬ Antisocial (stripLoop fuel s) ∧ stripLoop fuel s <:+ s := by
  induction fuel generalizing s with
  | zero =>
    obtain rfl := length_eq_zero_iff.mp (Nat.le_zero.mp hfuel)
    exact ⟨fun h => h.ne_nil rfl, suffix_rfl⟩
  | succ fuel ih =>
    unfold stripLoop
    split
    · next hdrop =>
      have hne := length_pos_iff.mpr (Antisocial.ne_nil hdrop)
      have hrest : ((s.dropWhile (· ≠ 47)).drop 1).length ≤ fuel := by
        have := (dropWhile_suffix (l := s) (· ≠ 47)).length_le
        rw [length_drop]
        omega
      obtain ⟨hends, hpart⟩ := ih hrest
      exact ⟨hends, hpart.trans ((drop_suffix _ _).trans (dropWhile_suffix _))⟩
    · next hends => exact ⟨hends, suffix_rfl⟩

theorem stripLoop_of_not {fuel : Nat} (h : ¬ Antisocial s) :
    stripLoop fuel s = s := by
  cases fuel with
  | zero => rfl
  | succ fuel => exact if_neg h

theorem stripAntisocialPrefixes_social (s : List UInt8) : Social (stripAntisocialPrefixes s) := by
  unfold stripAntisocialPrefixes
  simp only
  split
  · exact ⟨by decide, by decide, by unfold Antisocial; decide⟩
  · next hne =>
    rw [not_or] at hne
    exact ⟨hne.1, hne.2, (stripLoop_ends (Nat.le_refl _)).1⟩

theorem Social.strip_eq_self (h : Social s) : stripAntisocialPrefixes s = s := by
  unfold stripAntisocialPrefixes
  simp only [stripLoop_of_not h.prefixes]
  exact if_neg (not_or.mpr ⟨h.ne_nil, h.ne_up⟩)

theorem zero_notMem_strip (hs : 0 ∉ s) : 0 ∉ stripAntisocialPrefixes s := by
  unfold stripAntisocialPrefixes
  simp only
  split
  · decide
  · exact fun hmem => hs ((stripLoop_ends (Nat.le_refl _)).2.mem hmem)

/-! ## Octal fields -/

@[simp] theorem length_octal (width v : Nat) : (octal width v).length = width := by
  simp [octal]

theorem octal_getD {i : Nat} (hi : i < width) :
    (octal width v).getD i 0 = UInt8.ofNat (48 + v / 8 ^ (width - 1 - i) % 8) := by
  simp [octal, getD_eq_getElem?_getD, hi]

theorem digit_char {d : Nat} (hd : d < 8) :
    48 ≤ UInt8.ofNat (48 + d) ∧ UInt8.ofNat (48 + d) ≤ 55 ∧ (UInt8.ofNat (48 + d)).toNat = 48 + d := by
  have hall : ∀ e ∈ List.range 8, 48 ≤ UInt8.ofNat (48 + e) ∧ UInt8.ofNat (48 + e) ≤ 55 ∧
      (UInt8.ofNat (48 + e)).toNat = 48 + e := by decide
  exact hall d (mem_range.mpr hd)

/-- The number that the first `n` characters of the field show. -/
def octalValue (s : Mem) : Nat → Nat
  | 0 => 0
  | n + 1 => (s n).toNat - 48 + octalValue s n * 8

/-- A field with `n` digits from `ofs` on, then a space or a terminator, and a value below 2^32. -/
structure OctalField (s : Mem) (ofs size n v : Nat) : Prop where
  lower : ofs ≤ n
  upper : n < size
  pos : 0 < n
  digits : ∀ i, ofs ≤ i → i < n → 48 ≤ s i ∧ s i ≤ 55
  ends : s n = 32 ∨ s n = 0
  value : octalValue s n = v
  small : v < 2 ^ 32

section Octal

variable {s : Mem} {ofs size n v : Nat}

theorem octalValue_mono {n' : Nat} (h : n ≤ n') : octalValue s n ≤ octalValue s n' := by
  induction h with
  | refl => exact Nat.le_refl _
  | step _ ih =>
    rw [octalValue]
    omega

theorem OctalField.next (h : OctalField s ofs size n v) :
    n = ofs ∨ (48 ≤ s ofs ∧ s ofs ≤ 55) ∧ OctalField s (ofs + 1) size n v := by
  rcases Nat.eq_or_lt_of_le h.lower with heq | hlt
  · exact .inl heq.symm
  · exact .inr ⟨h.digits ofs (Nat.le_refl _) hlt, hlt, h.upper, h.pos,
      fun i hi => h.digits i (by omega), h.ends, h.value, h.small⟩

theorem OctalField.parseOctalLoop {left : Nat} (h : OctalField s ofs size n v)
    (hsize : ofs + left = size) : parseOctalLoop s left ofs (octalValue s ofs) = some v := by
  induction left generalizing ofs with
  | zero =>
    have hlower := h.lower
    have hupper := h.upper
    omega
  | succ left ih =>
    rw [Pintos.parseOctalLoop]
    rcases h.next with rfl | ⟨hdigit, hnext⟩
    · have hdigit : ¬ (48 ≤ s n ∧ s n ≤ 55) := by
        rcases h.ends with hend | hend <;> rw [hend] <;> decide
      rw [if_neg hdigit, if_pos h.ends, if_pos h.pos, h.value]
    · -- the values only grow
      have hmono := octalValue_mono (s := s) hnext.lower
      have hsmall := h.small
      rw [octalValue, h.value] at hmono
      rw [if_pos hdigit, if_neg (by omega)]
      exact ih hnext (by omega)

theorem octalField_of_parseOctalLoop {left : Nat} (hsize : ofs + left = size)
    (hvalue : octalValue s ofs < 2 ^ 32)
    (h : parseOctalLoop s left ofs (octalValue s ofs) = some v) : ∃ n, OctalField s ofs size n v := by
  induction left generalizing ofs with
  | zero => cases h
  | succ left ih =>
    rw [parseOctalLoop] at h
    split_ifs at h with hdigit hbig hend hpos
    · have hle : (s ofs).toNat ≤ 55 := UInt8.le_iff_toNat_le.mp hdigit.2
      obtain ⟨n, hn⟩ := ih (by omega) (by rw [octalValue]; omega) h
      refine ⟨n, Nat.le_of_succ_le hn.lower, hn.upper, hn.pos, fun i hi hin => ?_, hn.ends, hn.value,
        hn.small⟩
      rcases Nat.eq_or_lt_of_le hi with rfl | hi
      · exact hdigit
      · exact hn.digits i hi hin
    · cases h
      exact ⟨ofs, Nat.le_refl _, by omega, hpos, by omega, hend, rfl, hvalue⟩

theorem parseOctalField_eq_some :
    parseOctalField s size = some v ↔ ∃ n, OctalField s 0 size n v := by
  constructor
  · exact octalField_of_parseOctalLoop (Nat.zero_add _) (show 0 < 2 ^ 32 by decide)
  · rintro ⟨n, h⟩
    exact h.parseOctalLoop (Nat.zero_add _)

/-- The loop of `parse_octal_field` in the 32 bits of an `unsigned long`. -/
def parseOctalLoop32 (s : Mem) : Nat → Nat → Nat → Option Nat
  | 0, _, _ => none
  | left + 1, ofs, value =>
    let c := s ofs
    if 48 ≤ c ∧ c ≤ 55 then
      if 4294967295 / 8 < value then none
      else parseOctalLoop32 s left (ofs + 1) ((c.toNat - 48 + value * 8 % 2 ^ 32) % 2 ^ 32)
    else if c = 32 ∨ c = 0 then
      if 0 < ofs then some value else none
    else none

theorem parseOctalLoop32_eq (left ofs value : Nat) :
    parseOctalLoop32 s left ofs value = parseOctalLoop s left ofs value := by
  induction left generalizing ofs value with
  | zero => rfl
  | succ left ih =>
    rw [parseOctalLoop32, parseOctalLoop]
    split_ifs with hdigit hbig
    · rfl
    · have hle : (s ofs).toNat ≤ 55 := UInt8.le_iff_toNat_le.mp hdigit.2
      rw [ih, Nat.mod_eq_of_lt (by omega), Nat.mod_eq_of_lt (by omega)]
    all_goals rfl

end Octal

/-- **`parse_octal_field` accepts exactly the valid fields**, and no sum of it wraps around. -/
theorem parse_octal_exact (s : Mem) (size : Nat) :
    parseOctalLoop32 s size 0 0 = parseOctalField s size ∧
    ∀ v, parseOctalField s size = some v ↔ ∃ n, OctalField s 0 size n v :=
  ⟨parseOctalLoop32_eq size 0 0, fun _ => parseOctalField_eq_some⟩

theorem parseOctalField_octal {s : Mem} {size : Nat}
    (hs : ∀ i ≤ width, s i = (octal width v).getD i 0) (hfits : v < 8 ^ width) (hv : v < 4294967296)
    (hpos : 0 < width) (hsize : width < size) : parseOctalField s size = some v := by
  have hdigit : ∀ i < width, s i = UInt8.ofNat (48 + v / 8 ^ (width - 1 - i) % 8) := fun i hi =>
    (hs i hi.le).trans (octal_getD hi)
  have hchar : ∀ i < width, 48 ≤ s i ∧ s i ≤ 55 ∧ (s i).toNat = 48 + v / 8 ^ (width - 1 - i) % 8 := by
    intro i hi
    rw [hdigit i hi]
    exact digit_char (Nat.mod_lt _ (by decide))
  have hvalue : ∀ n ≤ width, octalValue s n = v / 8 ^ (width - n) := by
    intro n hn
    induction n with
    | zero => exact (Nat.div_eq_of_lt hfits).symm
    | succ n ih =>
      have hexp : width - n = width - 1 - n + 1 := by omega
      rw [octalValue, ih (by omega), (hchar n hn).2.2, hexp, Nat.pow_succ, ← Nat.div_div_eq_div_mul,
        show width - (n + 1) = width - 1 - n by omega]
      omega
  refine parseOctalField_eq_some.mpr ⟨width, Nat.zero_le _, hsize, hpos, fun i _ hi => ?_, .inr ?_, ?_, hv⟩
  · exact ⟨(hchar i hi).1, (hchar i hi).2.1⟩
  · rw [hs width (Nat.le_refl _), getD_eq_default _ _ (by simp)]
  · rw [hvalue width (Nat.le_refl _), Nat.sub_self, Nat.pow_zero, Nat.div_one]

/-! ## The fields of a header -/

section Fields

variable {h : Mem} {ofs x : Nat} {s : List UInt8}

theorem storeField_out (hx : x < ofs ∨ ofs + s.length < x) : storeField h ofs s x = h x :=
  write_out (by omega)

theorem storeField_add {i : Nat} (hi : i ≤ s.length) :
    storeField h ofs s (ofs + i) = s.getD i 0 := write_add (by omega)

theorem calculateChksum_congr {h h' : Mem} (heq : ∀ i < 512, i < 148 ∨ 156 ≤ i → h i = h' i) :
    calculateChksum h = calculateChksum h' := by
  refine congrArg List.sum (map_congr_left fun i hi => ?_)
  have hlt := mem_range.mp hi
  by_cases hin : 148 ≤ i ∧ i < 156
  · rw [if_pos hin, if_pos hin]
  · rw [if_neg hin, if_neg hin, heq i hlt (by omega)]

theorem calculateChksum_lt (h : Mem) : calculateChksum h < 8 ^ 7 := by
  have hle : calculateChksum h ≤ ((List.range 512).map fun _ => 255).sum := by
    refine sum_le_sum fun i _ => ?_
    have hbyte := (h i).toNat_lt
    split <;> omega
  have hall : ((List.range 512).map fun _ => 255).sum = 512 * 255 := by
    rw [map_const', length_range, sum_replicate_nat]
  omega

/-- The fields that `ustar_parse_header` reads. -/
structure Heads (h : Mem) (name : List UInt8) (type : UstarType) (size : Nat) : Prop where
  name : ∀ i < 100, h i = name.getD i 0
  size : ∀ i ≤ 11, h (124 + i) = (octal 11 size).getD i 0
  chksum : ∀ i ≤ 7, h (148 + i) = (octal 7 (calculateChksum h)).getD i 0
  typeflag : h 156 = type.typeflag
  magic : ∀ i ≤ 5, h (257 + i) = [117, 115, 116, 97, 114].getD i 0
  version : h 263 = 48 ∧ h 264 = 48
  short : h 345 = 0

section Made

variable {header : Mem} {name : List UInt8} {type : UstarType} {size : Nat} {i : Nat}

theorem ustarFields_name (hi : i < 100) :
    ustarFields header name type size i = name.getD i 0 := by
  unfold ustarFields
  rw [storeField_out (.inl (by omega)), storeField_out (.inl (by omega)),
    fill_out (.inl (by omega)), storeField_out (.inl (by omega)), fill_out (.inl (by omega)),
    storeField_out (.inl (by omega)), storeField_out (.inl (by omega)),
    storeField_out (.inl (by omega)), storeField_out (.inl (by omega)),
    storeField_out (.inl (by omega))]
  by_cases hin : i ≤ name.length
  · have hstored := @storeField_add (header.fill 0 512 0) 0 name i hin
    rw [Nat.zero_add] at hstored
    exact hstored
  · have hzero := @Mem.fill_add header 0 512 i 0 (by omega)
    rw [Nat.zero_add] at hzero
    rw [storeField_out (.inr (by omega)), hzero, getD_eq_default _ _ (by omega)]

theorem ustarFields_size (hi : i ≤ 11) :
    ustarFields header name type size (124 + i) = (octal 11 size).getD i 0 := by
  unfold ustarFields
  rw [storeField_out (.inl (by omega)), storeField_out (.inl (by omega)),
    fill_out (.inl (by omega)), storeField_out (.inl (by omega)), fill_out (.inl (by omega)),
    storeField_out (.inl (by omega)), storeField_add (by rw [length_octal]; exact hi)]

theorem ustarFields_typeflag : ustarFields header name type size 156 = type.typeflag := by
  unfold ustarFields
  rw [storeField_out (.inl (by omega)), storeField_out (.inl (by omega)),
    fill_out (.inl (by omega)), storeField_out (.inl (by omega))]
  rfl

theorem ustarFields_magic (hi : i ≤ 5) :
    ustarFields header name type size (257 + i) = [117, 115, 116, 97, 114].getD i 0 := by
  unfold ustarFields
  rw [storeField_out (.inl (by omega)), storeField_out (.inl (by omega)),
    fill_out (.inl (by omega)), storeField_add hi]

theorem ustarFields_version (hi : i < 2) :
    ustarFields header name type size (263 + i) = 48 := by
  unfold ustarFields
  rw [storeField_out (.inl (by omega)), storeField_out (.inl (by omega)), fill_add hi]

theorem ustarFields_behind (hname : name.length ≤ 99) (hi : 302 ≤ i) :
    ustarFields header name type size i = header.fill 0 512 0 i := by
  unfold ustarFields
  rw [storeField_out (.inr (by simp; omega)), storeField_out (.inr (by simp; omega)),
    fill_out (.inr (by omega)), storeField_out (.inr (by simp; omega)),
    fill_out (.inr (by omega)), storeField_out (.inr (by simp; omega)),
    storeField_out (.inr (by simp; omega)), storeField_out (.inr (by simp; omega)),
    storeField_out (.inr (by simp; omega)), storeField_out (.inr (by simp; omega)),
    storeField_out (.inr (by omega))]

theorem ustarMakeHeader_made {fileName : List UInt8} (htype : type ≠ .eof)
    (hname : (stripAntisocialPrefixes fileName).length ≤ 99) (size : Nat) (header : Mem) :
    ∃ h, ustarMakeHeader fileName type size header = some h ∧
      Heads h (stripAntisocialPrefixes fileName) type size ∧ ∀ i, 512 ≤ i → h i = header i := by
  set name := stripAntisocialPrefixes fileName with hstrip
  have hout : ∀ {v i}, i < 148 ∨ 156 ≤ i →
      storeField (ustarFields header name type size) 148 (octal 7 v) i =
        ustarFields header name type size i :=
    fun hi => storeField_out (by rw [length_octal]; omega)
  have hsum : ∀ v, calculateChksum (storeField (ustarFields header name type size) 148 (octal 7 v)) =
      calculateChksum (ustarFields header name type size) :=
    fun v => calculateChksum_congr fun i _ hi => hout hi
  refine ⟨storeField (ustarFields header name type size) 148
    (octal 7 (calculateChksum (ustarFields header name type size))), ?_, ?_, ?_⟩
  · unfold ustarMakeHeader
    simp only [← hstrip]
    rw [if_neg htype, if_neg (by omega)]
  · refine ⟨fun i hi => ?_, fun i hi => ?_, fun i hi => ?_, ?_, fun i hi => ?_, ⟨?_, ?_⟩, ?_⟩
    · rw [hout (by omega), ustarFields_name hi]
    · rw [hout (by omega), ustarFields_size hi]
    · rw [hsum, storeField_add (by rw [length_octal]; exact hi)]
    · rw [hout (by omega), ustarFields_typeflag]
    · rw [hout (by omega), ustarFields_magic hi]
    · rw [hout (by omega), ustarFields_version (show 0 < 2 by omega)]
    · rw [hout (by omega), ustarFields_version (show 1 < 2 by omega)]
    · rw [hout (by omega), ustarFields_behind hname (by omega)]
      rfl
  · intro i hi
    rw [hout (by omega), ustarFields_behind hname (by omega), fill_out (by omega)]

theorem ustarMakeHeader_regular (hname : name.length ≤ 99) (hstrip : stripAntisocialPrefixes name = name)
    (size : Nat) (header : Mem) :
    ∃ h, ustarMakeHeader name .regular size header = some h ∧ Heads h name .regular size ∧
      ∀ i, 512 ≤ i → h i = header i := by
  obtain ⟨h, hmake, hheads, hbehind⟩ := @ustarMakeHeader_made .regular name nofun
    (hstrip.symm ▸ hname) size header
  rw [hstrip] at hheads
  exact ⟨h, hmake, hheads, hbehind⟩

end Made

end Fields

/-! ## Reading a header -/

section Parse

variable {h h' : Mem} {name : List UInt8} {size : Nat}

theorem Heads.congr {type : UstarType} (hh : Heads h name type size)
    (heq : ∀ i < 512, h' i = h i) : Heads h' name type size where
  name i hi := (heq i (by omega)).trans (hh.name i hi)
  size i hi := (heq _ (by omega)).trans (hh.size i hi)
  chksum i hi := by
    have hsum : calculateChksum h' = calculateChksum h :=
      calculateChksum_congr fun i hi _ => heq i hi
    rw [hsum, heq _ (by omega)]
    exact hh.chksum i hi
  typeflag := (heq _ (by omega)).trans hh.typeflag
  magic i hi := (heq _ (by omega)).trans (hh.magic i hi)
  version := ⟨(heq _ (by omega)).trans hh.version.1, (heq _ (by omega)).trans hh.version.2⟩
  short := (heq _ (by omega)).trans hh.short

theorem isAllZeros_iff {cnt : Nat} : isAllZeros h cnt = true ↔ ∀ i < cnt, h i = 0 := by
  simp [isAllZeros]

/-- `ustar_parse_header` reads the name, the type and the size, which a directory does not have. -/
theorem Heads.parse {type : UstarType} (hh : Heads h name type size) (htype : type ≠ .eof)
    (hname : name.length ≤ 99) (hzero : 0 ∉ name) (hstrip : stripAntisocialPrefixes name = name)
    (hsize : size < 2147483648) :
    ustarParseHeader h = .ok ⟨some name, type, if type = .regular then size else 0⟩ := by
  have hused : ¬ isAllZeros h 512 = true := by
    intro hz
    have h0 := isAllZeros_iff.mp hz 257 (by omega)
    rw [hh.magic 0 (by omega)] at h0
    cases h0
  have hmagic : (List.range 6).map (fieldAt h 257) = [117, 115, 116, 97, 114, 0] := by
    have hbyte : ∀ i ∈ List.range 6, fieldAt h 257 i = [117, 115, 116, 97, 114].getD i 0 := by
      intro i hi
      have hlt := mem_range.mp hi
      exact hh.magic i (by omega)
    rw [map_congr_left hbyte]
    decide
  have hsum := calculateChksum_lt h
  have hchksum : parseOctalField (fieldAt h 148) 8 = some (calculateChksum h) :=
    parseOctalField_octal hh.chksum hsum (by omega) (by omega) (by omega)
  have hsizeField : parseOctalField (fieldAt h 124) 12 = some size :=
    parseOctalField_octal hh.size (by omega) (by omega) (by omega) (by omega)
  have hshort : h 99 = 0 := by
    rw [hh.name 99 (by omega), getD_eq_default _ _ hname]
  have hread : headerName h = name :=
    takeWhile_stored hzero (by omega) fun i hi => hh.name i (by omega)
  unfold ustarParseHeader
  rw [if_neg hused, if_neg (not_not_intro hmagic), hh.version.1, hh.version.2, hchksum,
    hshort, hh.short, hh.typeflag, hsizeField, hread, hstrip]
  simp only [ne_eq, not_true_eq_false, or_self, if_false]
  cases type with
  | regular =>
    show (if 2147483647 < size then _ else _) = _
    rw [if_neg (by omega)]
    rfl
  | directory => rfl
  | eof => exact absurd rfl htype

theorem ustarParseHeader_bad {o : Nat} (ho : o < 512) (hused : h o ≠ 0) (hmagic : h 257 ≠ 117) :
    ustarParseHeader h = .error "not a ustar archive" := by
  have hzeros : ¬ isAllZeros h 512 = true := fun hz => hused (isAllZeros_iff.mp hz o ho)
  have hne : (List.range 6).map (fieldAt h 257) ≠ [117, 115, 116, 97, 114, 0] := by
    intro heq
    exact hmagic (head_eq_of_cons_eq heq)
  unfold ustarParseHeader
  rw [if_neg hzeros, if_pos hne]

theorem ustarParseHeader_blank (hzeros : ∀ o < 512, h o = 0) :
    ustarParseHeader h = .ok ⟨none, .eof, 0⟩ := by
  unfold ustarParseHeader
  rw [if_pos (isAllZeros_iff.mpr hzeros)]

theorem ustarParseHeader_size {entry : UstarEntry} (hparse : ustarParseHeader h = .ok entry) :
    entry.size < 2147483648 := by
  unfold ustarParseHeader at hparse
  simp only at hparse
  repeat' split at hparse
  all_goals cases hparse
  all_goals simp only
  all_goals omega

theorem ustarParseHeader_social {entry : UstarEntry} (hparse : ustarParseHeader h = .ok entry)
    (hname : entry.fileName = some name) : Social name := by
  have hstripped : name = stripAntisocialPrefixes (headerName h) := by
    unfold ustarParseHeader at hparse
    simp only at hparse
    repeat' split at hparse
    all_goals cases hparse
    all_goals cases hname
    all_goals rfl
  rw [hstripped]
  exact stripAntisocialPrefixes_social _

end Parse

/-- **Headers round-trip, and names are safe.** -/
theorem ustar_headers_round_trip (fileName : List UInt8) (hfile : 0 ∉ fileName) (type : UstarType)
    (htype : type ≠ .eof) (size : Nat) (hsize : size < 2147483648) (header : Mem) :
    ((ustarMakeHeader fileName type size header).isSome ↔
      (stripAntisocialPrefixes fileName).length ≤ 99) ∧
    (∀ h, ustarMakeHeader fileName type size header = some h → ustarParseHeader h =
      .ok ⟨some (stripAntisocialPrefixes fileName), type, if type = .regular then size else 0⟩) ∧
    ∀ (h : Mem) (entry : UstarEntry) (name : List UInt8), ustarParseHeader h = .ok entry →
      entry.fileName = some name → name ≠ [] ∧ name ≠ [46, 46] ∧ ¬ [47] <+: name ∧
        ¬ [46, 47] <+: name ∧ ¬ [46, 46, 47] <+: name ∧ entry.size ≤ 2147483647 := by
  have hshort : (ustarMakeHeader fileName type size header).isSome →
      (stripAntisocialPrefixes fileName).length ≤ 99 := by
    intro hsome
    by_contra hlong
    unfold ustarMakeHeader at hsome
    rw [if_neg htype, if_pos (Nat.lt_of_not_le hlong)] at hsome
    cases hsome
  refine ⟨⟨hshort, fun hle => ?_⟩, fun h hmake => ?_, fun h entry name hparse hname => ?_⟩
  · obtain ⟨h, hmake, -⟩ := ustarMakeHeader_made htype hle size header
    rw [hmake]
    rfl
  · have hle := hshort (by rw [hmake]; rfl)
    obtain ⟨h', hmake', hheads, -⟩ := ustarMakeHeader_made htype hle size header
    obtain rfl := Option.some.inj (hmake.symm.trans hmake')
    exact hheads.parse htype hle (zero_notMem_strip hfile)
      (stripAntisocialPrefixes_social fileName).strip_eq_self hsize
  · obtain ⟨hne, hup, hprefix⟩ := ustarParseHeader_social hparse hname
    have hle := ustarParseHeader_size hparse
    rw [antisocial_iff, not_or, not_or] at hprefix
    exact ⟨hne, hup, hprefix.1, hprefix.2.1, hprefix.2.2, by omega⟩

/-- A directory whose name has a prefix that is stripped. -/
theorem ustar_headers_round_trip_directory :
    ∃ h, ustarMakeHeader [47, 97] .directory 5 (fun _ => 0) = some h ∧
      ustarParseHeader h = .ok ⟨some [97], .directory, 0⟩ := by
  obtain ⟨hmade, hparse, -⟩ := ustar_headers_round_trip [47, 97] (by decide) .directory (by decide) 5
    (by decide) fun _ => 0
  obtain ⟨h, hmake⟩ := Option.isSome_iff_exists.mp (hmade.mpr (by decide))
  exact ⟨h, hmake, hparse h hmake⟩

end Pintos
