import Mathlib.Tactic.IntervalCases
import Mathlib.Data.BitVec

/-!
# 64-bit division (`lib/arithmetic.c`)

`divl` is the instruction of the processor, which traps if its quotient does not fit in 32 bits.
A divisor of more than 32 bits is cut to its 32 leading bits; the quotient by these is right or one
too large.
-/

namespace Pintos

open Option BitVec

/-! ## The code -/

/-- `divl`; `none` is the divide error. -/
def divl (n : BitVec 64) (d : BitVec 32) : Option (BitVec 32) :=
  if d = 0#32 ∨ 2 ^ 32 ≤ n.toNat / d.toNat then none
  else some (BitVec.ofNat 32 (n.toNat / d.toNat))

/-- One of the tests of `nlz`: `n` and `x` change if `x` is at most the limit. -/
def nlzStep (limit : BitVec 32) (k : Nat) (p : Nat × BitVec 32) : Nat × BitVec 32 :=
  if p.2 ≤ limit then (p.1 + k, p.2 <<< k) else p

/-- `nlz`; the last test does not shift `x`, which is not used again. -/
def nlz (x : BitVec 32) : Nat :=
  let p := nlzStep 0x0000FFFF 16 (0, x)
  let p := nlzStep 0x00FFFFFF 8 p
  let p := nlzStep 0x0FFFFFFF 4 p
  let p := nlzStep 0x3FFFFFFF 2 p
  (nlzStep 0x7FFFFFFF 1 p).1

def udiv64 (n d : BitVec 64) : Option (BitVec 64) :=
  if d >>> 32 = 0#64 then do
    let b := 1#64 <<< 32
    let n1 := (n >>> 32).setWidth 32
    let n0 := n.setWidth 32
    let d0 := d.setWidth 32
    let q ← divl (b * (n1 % d0).setWidth 64 + n0.setWidth 64) d0
    return q.setWidth 64 + b * (n1 / d0).setWidth 64
  else if n < d then some 0#64
  else do
    let d1 := (d >>> 32).setWidth 32
    let s := nlz d1
    let q ← divl (n >>> 1) ((d <<< s) >>> 32 |>.setWidth 32)
    let q := (q >>> (31 - s)).setWidth 64
    return if n - (q - 1#64) * d < d then q - 1#64 else q

/-- `umod64`, which returns a `uint32_t`. -/
def umod64 (n d : BitVec 64) : Option (BitVec 32) := do
  let q ← udiv64 n d
  return (n - d * q).setWidth 32

/-- The argument of `udiv64` for a signed number. -/
def abs64 (n : BitVec 64) : BitVec 64 := if n.slt 0#64 then -n else n

def sdiv64 (n d : BitVec 64) : Option (BitVec 64) := do
  let qAbs ← udiv64 (abs64 n) (abs64 d)
  return if n.slt 0#64 = d.slt 0#64 then qAbs else -qAbs

/-- `smod64`, which returns an `int32_t`. -/
def smod64 (n d : BitVec 64) : Option (BitVec 32) := do
  let q ← sdiv64 n d
  return (n - d * q).setWidth 32

def divdi3 (n d : BitVec 64) : Option (BitVec 64) := sdiv64 n d

def moddi3 (n d : BitVec 64) : Option (BitVec 64) := (smod64 n d).map (·.signExtend 64)

def udivdi3 (n d : BitVec 64) : Option (BitVec 64) := udiv64 n d

def umoddi3 (n d : BitVec 64) : Option (BitVec 64) := (umod64 n d).map (·.setWidth 64)

/-! ## The leading zeros -/

variable {d n : BitVec 64}

theorem divl_eq_some {d : BitVec 32} (hd : d ≠ 0#32)
    (hq : n.toNat / d.toNat < 2 ^ 32) :
    ∃ q, divl n d = some q ∧ q.toNat = n.toNat / d.toNat := by
  refine ⟨_, if_neg (not_or.mpr ⟨hd, Nat.not_le_of_lt hq⟩), ?_⟩
  rw [toNat_ofNat, Nat.mod_eq_of_lt hq]

theorem nlzStep_spec {limit x : BitVec 32} {k n : Nat} (hk : 2 * k ≤ 32)
    (hlimit : limit.toNat = 2 ^ (32 - k) - 1) (hx : 2 ^ (32 - 2 * k) ≤ x.toNat) :
    ∃ j y, nlzStep limit k (n, x) = (n + j, y) ∧ (j = 0 ∨ j = k) ∧ y.toNat = x.toNat * 2 ^ j ∧
      2 ^ (32 - k) ≤ y.toNat := by
  have hpow : 2 ^ (32 - k) * 2 ^ k = 2 ^ 32 := by
    rw [← Nat.pow_add]
    congr 1
    omega
  have hpos : 0 < 2 ^ (32 - k) := Nat.two_pow_pos _
  unfold nlzStep
  by_cases hle : x ≤ limit
  · have hlt : x.toNat < 2 ^ (32 - k) := by
      have := BitVec.le_def.mp hle
      omega
    have hshift : (x <<< k).toNat = x.toNat * 2 ^ k := by
      rw [BitVec.toNat_shiftLeft, Nat.shiftLeft_eq]
      apply Nat.mod_eq_of_lt
      calc x.toNat * 2 ^ k < 2 ^ (32 - k) * 2 ^ k :=
            Nat.mul_lt_mul_of_pos_right hlt (Nat.two_pow_pos k)
        _ = 2 ^ 32 := hpow
    refine ⟨k, x <<< k, if_pos hle, .inr rfl, hshift, ?_⟩
    rw [hshift]
    calc 2 ^ (32 - k) = 2 ^ (32 - 2 * k) * 2 ^ k := by
          rw [← Nat.pow_add]
          congr 1
          omega
      _ ≤ x.toNat * 2 ^ k := Nat.mul_le_mul_right _ hx
  · refine ⟨0, x, if_neg hle, .inl rfl, (Nat.mul_one _).symm, ?_⟩
    have := BitVec.lt_def.mp (BitVec.not_le.mp hle)
    omega

theorem nlz_spec {x : BitVec 32} (hx : x ≠ 0#32) :
    nlz x ≤ 31 ∧ 2 ^ 31 ≤ x.toNat * 2 ^ nlz x ∧ x.toNat * 2 ^ nlz x < 2 ^ 32 := by
  have hpos : 2 ^ (32 - 2 * 16) ≤ x.toNat := by
    have := mt eq_of_toNat_eq hx
    exact Nat.one_le_iff_ne_zero.mpr this
  unfold nlz
  obtain ⟨j₁, y₁, h₁, hj₁, hy₁, hlow₁⟩ := @nlzStep_spec 0x0000FFFF x 16 0 (by decide) rfl hpos
  obtain ⟨j₂, y₂, h₂, hj₂, hy₂, hlow₂⟩ := @nlzStep_spec 0x00FFFFFF y₁ 8 (0 + j₁) (by decide) rfl hlow₁
  obtain ⟨j₃, y₃, h₃, hj₃, hy₃, hlow₃⟩ :=
    @nlzStep_spec 0x0FFFFFFF y₂ 4 (0 + j₁ + j₂) (by decide) rfl hlow₂
  obtain ⟨j₄, y₄, h₄, hj₄, hy₄, hlow₄⟩ :=
    @nlzStep_spec 0x3FFFFFFF y₃ 2 (0 + j₁ + j₂ + j₃) (by decide) rfl hlow₃
  obtain ⟨j₅, y₅, h₅, hj₅, hy₅, hlow₅⟩ :=
    @nlzStep_spec 0x7FFFFFFF y₄ 1 (0 + j₁ + j₂ + j₃ + j₄) (by decide) rfl hlow₄
  simp only [h₁, h₂, h₃, h₄, h₅]
  have hy : x.toNat * 2 ^ (0 + j₁ + j₂ + j₃ + j₄ + j₅) = y₅.toNat := by
    rw [hy₅, hy₄, hy₃, hy₂, hy₁, Nat.zero_add, Nat.pow_add, Nat.pow_add, Nat.pow_add, Nat.pow_add]
    simp only [Nat.mul_assoc]
  rw [hy]
  exact ⟨by omega, hlow₅, y₅.isLt⟩

/-! ## The quotient -/

/-- The quotient by `d` without its low bits, for a `d` whose first bit has been shifted out `s` bits:
it is the quotient by `d`, or one more. -/
theorem quotient_estimate {n d s : Nat} (hn : n < 2 ^ 64) (hs : s ≤ 31) (hd : 2 ^ (63 - s) ≤ d) :
    n / d ≤ n / (d / 2 ^ (32 - s) * 2 ^ (32 - s)) ∧
      n / (d / 2 ^ (32 - s) * 2 ^ (32 - s)) ≤ n / d + 1 := by
  set t := 2 ^ (32 - s) with ht
  set e := d / t * t with he
  set Q := n / d with hQ
  have htpos : 0 < t := Nat.two_pow_pos _
  have hdpos : 0 < d := Nat.lt_of_lt_of_le (Nat.two_pow_pos _) hd
  have hsplit : e + d % t = d := Nat.div_add_mod' d t
  have hmod : d % t ≤ t - 1 := Nat.le_sub_one_of_lt (Nat.mod_lt d htpos)
  -- the part of `d` that stays
  have hlow : 2 ^ (63 - s) ≤ e := by
    have hpow : 2 ^ (63 - s) = 2 ^ 31 * t := by
      rw [ht, ← Nat.pow_add]
      congr 1
      omega
    rw [hpow] at hd ⊢
    exact Nat.mul_le_mul_right t ((Nat.le_div_iff_mul_le htpos).mpr hd)
  have hepos : 0 < e := Nat.lt_of_lt_of_le (Nat.two_pow_pos _) hlow
  have hQle : Q + 1 ≤ 2 ^ (s + 1) := by
    apply Nat.div_lt_of_lt_mul
    calc n < 2 ^ 64 := hn
      _ = 2 ^ (63 - s) * 2 ^ (s + 1) := by
        rw [← Nat.pow_add]
        congr 1
        omega
      _ ≤ d * 2 ^ (s + 1) := Nat.mul_le_mul_right _ hd
  -- what the low bits contribute is not more than `e`
  have hsmall : d % t * (Q + 1) ≤ e := by
    have hnum : (t - 1) * 2 ^ (s + 1) ≤ 2 ^ (63 - s) := by
      rw [ht]
      clear * - hs
      interval_cases s <;> norm_num
    exact (Nat.mul_le_mul hmod hQle).trans (hnum.trans hlow)
  refine ⟨Nat.div_le_div_left (by omega) hepos, Nat.le_of_lt_succ (Nat.div_lt_of_lt_mul ?_)⟩
  calc n < d * (Q + 1) := Nat.lt_mul_div_succ n hdpos
    _ = e * (Q + 1) + d % t * (Q + 1) := by rw [← Nat.add_mul, hsplit]
    _ ≤ e * (Q + 1) + e := Nat.add_le_add_left hsmall _
    _ = e * (Q + 1).succ := rfl

/-- A divisor whose 32 high bits have been shifted by `nlz`: no bit is lost, and the 32 leading bits
are those of `d` without the low ones. -/
theorem normalised {d s : Nat} (hs : s ≤ 31) (hfirst : 2 ^ 31 ≤ d / 2 ^ 32 * 2 ^ s)
    (hlast : d / 2 ^ 32 * 2 ^ s < 2 ^ 32) :
    d * 2 ^ s < 2 ^ 64 ∧ 2 ^ (63 - s) ≤ d ∧ d * 2 ^ s / 2 ^ 32 = d / 2 ^ (32 - s) ∧
      2 ^ 31 ≤ d / 2 ^ (32 - s) := by
  have hpow : ∀ a b c, a + b = c → 2 ^ a * 2 ^ b = 2 ^ c := by
    intro a b c h
    rw [← Nat.pow_add, h]
  have hspos : 0 < 2 ^ s := Nat.two_pow_pos s
  have hdlow : 2 ^ (63 - s) ≤ d := by
    apply Nat.le_of_mul_le_mul_right _ hspos
    calc 2 ^ (63 - s) * 2 ^ s = 2 ^ 31 * 2 ^ 32 := hpow _ _ 63 (by omega)
      _ ≤ d / 2 ^ 32 * 2 ^ s * 2 ^ 32 := Nat.mul_le_mul_right _ hfirst
      _ = d / 2 ^ 32 * 2 ^ 32 * 2 ^ s := Nat.mul_right_comm _ _ _
      _ ≤ d * 2 ^ s := Nat.mul_le_mul_right _ (Nat.div_mul_le_self _ _)
  refine ⟨?_, hdlow, ?_, ?_⟩
  · have hup : d / 2 ^ 32 < 2 ^ (32 - s) := by
      have hlast' : d / 2 ^ 32 * 2 ^ s < 2 ^ (32 - s) * 2 ^ s := by
        rw [hpow (32 - s) s 32 (by omega)]
        exact hlast
      exact Nat.lt_of_mul_lt_mul_right hlast'
    calc d * 2 ^ s < 2 ^ 32 * (d / 2 ^ 32 + 1) * 2 ^ s :=
          Nat.mul_lt_mul_of_pos_right (by omega) hspos
      _ ≤ 2 ^ 32 * 2 ^ (32 - s) * 2 ^ s := Nat.mul_le_mul_right _ (Nat.mul_le_mul_left _ hup)
      _ = 2 ^ 64 := by rw [hpow _ _ (64 - s) (by omega), hpow _ _ 64 (by omega)]
  · rw [← hpow (32 - s) s 32 (by omega), Nat.mul_div_mul_right _ _ hspos]
  · rw [Nat.le_div_iff_mul_le (Nat.two_pow_pos _), hpow _ _ (63 - s) (by omega)]
    exact hdlow

/-- The test at the end of `udiv64` finds out which of the two it is. -/
theorem correct_estimate {q : BitVec 64} (hle : d.toNat ≤ n.toNat) (hd : 0 < d.toNat)
    (hlow : n.toNat / d.toNat ≤ q.toNat) (hhigh : q.toNat ≤ n.toNat / d.toNat + 1) :
    (if n - (q - 1#64) * d < d then q - 1#64 else q).toNat = n.toNat / d.toNat := by
  have hQ : 0 < n.toNat / d.toNat := Nat.div_pos hle hd
  have hn := n.isLt
  have hpred : (q - 1#64).toNat = q.toNat - 1 := by
    have := q.isLt
    rw [toNat_sub, toNat_ofNat]
    omega
  have hsplit : d.toNat * (n.toNat / d.toNat) + n.toNat % d.toNat = n.toNat := Nat.div_add_mod _ _
  have hmod := Nat.mod_lt n.toNat hd
  have hprod : (q.toNat - 1) * d.toNat ≤ n.toNat := by
    calc (q.toNat - 1) * d.toNat ≤ n.toNat / d.toNat * d.toNat :=
          Nat.mul_le_mul_right _ (by omega)
      _ ≤ n.toNat := Nat.div_mul_le_self _ _
  have hrest : (n - (q - 1#64) * d).toNat = n.toNat - (q.toNat - 1) * d.toNat := by
    rw [toNat_sub, toNat_mul, hpred]
    omega
  have htest : n - (q - 1#64) * d < d ↔ n.toNat - (q.toNat - 1) * d.toNat < d.toNat := by
    rw [lt_def, hrest]
  rcases Nat.lt_or_eq_of_le hhigh with hlt | heq
  · have hq : q.toNat = n.toNat / d.toNat := by omega
    have hpart : (q.toNat - 1) * d.toNat + d.toNat = d.toNat * (n.toNat / d.toNat) := by
      rw [hq, ← Nat.succ_mul, Nat.succ_eq_add_one, Nat.sub_add_cancel hQ, Nat.mul_comm]
    rw [if_neg (by rw [htest]; omega), hq]
  · have hpart : (q.toNat - 1) * d.toNat = d.toNat * (n.toNat / d.toNat) := by
      rw [heq, Nat.add_sub_cancel, Nat.mul_comm]
    rw [if_pos (by rw [htest]; omega), hpred, heq, Nat.add_sub_cancel]

theorem udiv64_short (hd : d ≠ 0#64) (hshort : d >>> 32 = 0#64) :
    udiv64 n d = some (n / d) := by
  have hdlt : d.toNat < 2 ^ 32 := by
    have h := congrArg BitVec.toNat hshort
    rw [BitVec.toNat_ushiftRight, Nat.shiftRight_eq_div_pow, BitVec.toNat_ofNat] at h
    omega
  have hdpos : 0 < d.toNat := Nat.pos_of_ne_zero fun h => hd (BitVec.eq_of_toNat_eq h)
  have hn := n.isLt
  have hn1 : ((n >>> 32).setWidth 32).toNat = n.toNat / 2 ^ 32 := by
    rw [BitVec.toNat_setWidth, BitVec.toNat_ushiftRight, Nat.shiftRight_eq_div_pow]
    omega
  have hd0 : (d.setWidth 32).toNat = d.toNat := by
    rw [BitVec.toNat_setWidth, Nat.mod_eq_of_lt hdlt]
  have hd0ne : d.setWidth 32 ≠ 0#32 := by
    intro h
    rw [h] at hd0
    exact Nat.ne_of_gt hdpos hd0.symm
  have hmod := Nat.mod_lt (n.toNat / 2 ^ 32) hdpos
  have hb : (1#64 <<< 32).toNat = 2 ^ 32 := rfl
  have hdividend : (1#64 <<< 32 * ((n >>> 32).setWidth 32 % d.setWidth 32).setWidth 64 +
      (n.setWidth 32).setWidth 64).toNat =
      2 ^ 32 * (n.toNat / 2 ^ 32 % d.toNat) + n.toNat % 2 ^ 32 := by
    rw [BitVec.toNat_add, BitVec.toNat_mul, hb, BitVec.toNat_setWidth, BitVec.toNat_umod, hn1, hd0,
      BitVec.toNat_setWidth, BitVec.toNat_setWidth]
    omega
  have hfits : (2 ^ 32 * (n.toNat / 2 ^ 32 % d.toNat) + n.toNat % 2 ^ 32) / d.toNat < 2 ^ 32 := by
    apply Nat.div_lt_of_lt_mul
    calc 2 ^ 32 * (n.toNat / 2 ^ 32 % d.toNat) + n.toNat % 2 ^ 32
        < 2 ^ 32 * (n.toNat / 2 ^ 32 % d.toNat + 1) := by omega
      _ ≤ 2 ^ 32 * d.toNat := Nat.mul_le_mul_left _ hmod
      _ = d.toNat * 2 ^ 32 := Nat.mul_comm _ _
  obtain ⟨q, hdivl, hq⟩ := divl_eq_some hd0ne (by rw [hdividend, hd0]; exact hfits)
  rw [hdividend, hd0] at hq
  have hquot : n.toNat / d.toNat = q.toNat + 2 ^ 32 * (n.toNat / 2 ^ 32 / d.toNat) := by
    have hsplit := Nat.div_add_mod (n.toNat / 2 ^ 32) d.toNat
    have hwhole : n.toNat = (2 ^ 32 * (n.toNat / 2 ^ 32 % d.toNat) + n.toNat % 2 ^ 32) +
        d.toNat * (2 ^ 32 * (n.toNat / 2 ^ 32 / d.toNat)) := by
      rw [Nat.mul_left_comm]
      omega
    calc n.toNat / d.toNat = ((2 ^ 32 * (n.toNat / 2 ^ 32 % d.toNat) + n.toNat % 2 ^ 32) +
            d.toNat * (2 ^ 32 * (n.toNat / 2 ^ 32 / d.toNat))) / d.toNat := by rw [← hwhole]
      _ = q.toNat + 2 ^ 32 * (n.toNat / 2 ^ 32 / d.toNat) := by
        rw [Nat.add_mul_div_left _ _ hdpos, ← hq]
  unfold udiv64
  rw [if_pos hshort]
  simp only [hdivl, bind_eq_bind, bind_some, pure_def, Option.some.injEq]
  apply BitVec.eq_of_toNat_eq
  have hle : n.toNat / d.toNat ≤ n.toNat := Nat.div_le_self _ _
  rw [BitVec.toNat_add, BitVec.toNat_mul, hb, BitVec.toNat_setWidth, BitVec.toNat_setWidth,
    BitVec.toNat_udiv, BitVec.toNat_udiv, hn1, hd0]
  omega

theorem udiv64_long (hlong : d >>> 32 ≠ 0#64) : udiv64 n d = some (n / d) := by
  have hhigh : (d >>> 32).toNat = d.toNat / 2 ^ 32 := by
    rw [BitVec.toNat_ushiftRight, Nat.shiftRight_eq_div_pow]
  have hd := d.isLt
  have hn := n.isLt
  have hd1 : ((d >>> 32).setWidth 32).toNat = d.toNat / 2 ^ 32 := by
    rw [BitVec.toNat_setWidth, hhigh]
    omega
  have hd1ne : (d >>> 32).setWidth 32 ≠ 0#32 := by
    intro h
    rw [h] at hd1
    exact hlong (BitVec.eq_of_toNat_eq (hhigh.trans hd1.symm))
  unfold udiv64
  rw [if_neg hlong]
  by_cases hlt : n < d
  · rw [if_pos hlt]
    congr 1
    apply BitVec.eq_of_toNat_eq
    rw [BitVec.toNat_udiv, Nat.div_eq_of_lt (BitVec.lt_def.mp hlt)]
    rfl
  · rw [if_neg hlt]
    obtain ⟨hs, hfirst, hlast⟩ := nlz_spec hd1ne
    rw [hd1] at hfirst hlast
    dsimp only
    generalize nlz ((d >>> 32).setWidth 32) = s at *
    have hle : d.toNat ≤ n.toNat := BitVec.le_def.mp (BitVec.not_lt.mp hlt)
    obtain ⟨hwhole, hdlow, hcut, hDlow⟩ := normalised hs hfirst hlast
    have hD : (((d <<< s) >>> 32).setWidth 32).toNat = d.toNat / 2 ^ (32 - s) := by
      rw [BitVec.toNat_setWidth, BitVec.toNat_ushiftRight, Nat.shiftRight_eq_div_pow,
        BitVec.toNat_shiftLeft, Nat.shiftLeft_eq, Nat.mod_eq_of_lt hwhole, hcut,
        Nat.mod_eq_of_lt (by omega)]
    have hDne : ((d <<< s) >>> 32).setWidth 32 ≠ 0#32 := by
      intro h
      rw [h] at hD
      rw [← hD] at hDlow
      exact absurd hDlow (by decide)
    have hhalf : (n >>> 1).toNat = n.toNat / 2 := by
      rw [BitVec.toNat_ushiftRight, Nat.shiftRight_eq_div_pow]
    have hfits : (n >>> 1).toNat / (((d <<< s) >>> 32).setWidth 32).toNat < 2 ^ 32 := by
      rw [hhalf, hD]
      apply Nat.div_lt_of_lt_mul
      calc n.toNat / 2 < 2 ^ 31 * 2 ^ 32 := by omega
        _ ≤ d.toNat / 2 ^ (32 - s) * 2 ^ 32 := Nat.mul_le_mul_right _ hDlow
    obtain ⟨q, hdivl, hq⟩ := divl_eq_some hDne hfits
    have hestimate : ((q >>> (31 - s)).setWidth 64).toNat =
        n.toNat / (d.toNat / 2 ^ (32 - s) * 2 ^ (32 - s)) := by
      have hqs : (q >>> (31 - s)).toNat < 2 ^ 64 := Nat.lt_trans (BitVec.isLt _) (by decide)
      rw [BitVec.toNat_setWidth, Nat.mod_eq_of_lt hqs, BitVec.toNat_ushiftRight,
        Nat.shiftRight_eq_div_pow, hq, hhalf, hD, Nat.div_div_eq_div_mul, Nat.div_div_eq_div_mul]
      congr 1
      have hexp : 2 ^ (32 - s) = 2 * 2 ^ (31 - s) := by
        have : 32 - s = 31 - s + 1 := by omega
        rw [this, Nat.pow_succ, Nat.mul_comm]
      rw [hexp, Nat.mul_left_comm]
    obtain ⟨hlow, hup⟩ := quotient_estimate hn hs hdlow
    rw [← hestimate] at hlow hup
    simp only [hdivl, bind_eq_bind, bind_some, pure_def, Option.some.injEq]
    apply BitVec.eq_of_toNat_eq
    rw [correct_estimate hle (Nat.lt_of_lt_of_le (Nat.two_pow_pos _) hdlow) hlow hup,
      BitVec.toNat_udiv]

theorem udiv64_eq (n : BitVec 64) (hd : d ≠ 0#64) : udiv64 n d = some (n / d) := by
  by_cases hshort : d >>> 32 = 0#64
  · exact udiv64_short hd hshort
  · exact udiv64_long hshort

/-! ## Signed numbers and remainders -/

theorem abs64_ne_zero (hd : d ≠ 0#64) : abs64 d ≠ 0#64 := by
  unfold abs64
  split
  · exact fun h => hd (by simpa using h)
  · exact hd

theorem sdiv64_eq (n : BitVec 64) (hd : d ≠ 0#64) :
    sdiv64 n d = some (n.sdiv d) := by
  unfold sdiv64
  rw [udiv64_eq _ (abs64_ne_zero hd), sdiv_eq]
  simp only [abs64, slt_zero_eq_msb, bind_eq_bind, bind_some]
  cases n.msb <;> cases d.msb <;> rfl

theorem sdiv_eq_ofInt (n d : BitVec 64) :
    n.sdiv d = BitVec.ofInt 64 (n.toInt.tdiv d.toInt) := by
  apply eq_of_toInt_eq
  rw [toInt_sdiv, toInt_ofInt]

/-- **64-bit division is exact and never traps.** -/
theorem div64_exact (n d : BitVec 64) (hd : d ≠ 0#64) :
    (∃ q, udiv64 n d = some q ∧ q.toNat = n.toNat / d.toNat) ∧
      sdiv64 n d = some (BitVec.ofInt 64 (n.toInt.tdiv d.toInt)) := by
  refine ⟨⟨_, udiv64_eq n hd, toNat_udiv⟩, ?_⟩
  rw [sdiv64_eq n hd, sdiv_eq_ofInt]

theorem div64_exact_most_negative :
    sdiv64 (BitVec.intMin 64) (-1#64) = some (BitVec.ofInt 64 (2 ^ 63)) :=
  (div64_exact (intMin 64) (-1#64) (by decide)).2

theorem sub_mul_udiv (n d : BitVec 64) : n - d * (n / d) = n % d := by
  apply eq_of_toNat_eq
  have hn := n.isLt
  have hsplit : d.toNat * (n.toNat / d.toNat) + n.toNat % d.toNat = n.toNat := Nat.div_add_mod _ _
  rw [toNat_sub, toNat_mul, toNat_udiv, toNat_umod]
  omega

theorem sub_mul_sdiv (n d : BitVec 64) : n - d * n.sdiv d = n.srem d := by
  apply eq_of_toInt_eq
  have hsplit : d.toInt * n.toInt.tdiv d.toInt + n.toInt.tmod d.toInt = n.toInt :=
    Int.mul_tdiv_add_tmod _ _
  have hrem : n.toInt - d.toInt * n.toInt.tdiv d.toInt = n.toInt.tmod d.toInt := by omega
  rw [toInt_srem, toInt_sub, toInt_mul, toInt_sdiv, Int.mul_bmod_bmod,
    Int.sub_bmod_bmod, hrem, ← toInt_srem, toInt_bmod_cancel]

theorem toInt_cut (x : BitVec 64) :
    ((x.setWidth 32).signExtend 64).toInt = x.toInt.bmod (2 ^ 32) := by
  rw [toInt_signExtend_of_le (by decide), toInt_setWidth, toInt_eq_toNat_bmod,
    Int.bmod_bmod_of_dvd (by decide)]

/-- **The remainders agree with division exactly if they fit in 32 bits.** -/
theorem mod64_right_iff (n d : BitVec 64) (hd : d ≠ 0#64) :
    (∃ q r, udivdi3 n d = some q ∧ umoddi3 n d = some r ∧
      (r = n - d * q ∧ r.toNat < d.toNat ↔ n.toNat % d.toNat < 2 ^ 32)) ∧
    ∃ q r, divdi3 n d = some q ∧ moddi3 n d = some r ∧
      (r = n - d * q ∧ r.toInt.natAbs < d.toInt.natAbs ↔
        -2 ^ 31 ≤ n.toInt.tmod d.toInt ∧ n.toInt.tmod d.toInt < 2 ^ 31) := by
  refine ⟨⟨n / d, ((n % d).setWidth 32).setWidth 64, udiv64_eq n hd, ?_, ?_⟩,
    ⟨n.sdiv d, ((n.srem d).setWidth 32).signExtend 64, sdiv64_eq n hd, ?_, ?_⟩⟩
  · simp only [umoddi3, umod64, udiv64_eq n hd, bind_eq_bind, bind_some,
      pure_def, map_some, sub_mul_udiv]
  · have hdpos : 0 < d.toNat := Nat.pos_of_ne_zero fun h => hd (eq_of_toNat_eq h)
    have hcut : (((n % d).setWidth 32).setWidth 64).toNat = n.toNat % d.toNat % 2 ^ 32 := by
      rw [toNat_setWidth, toNat_setWidth, toNat_umod]
      omega
    have hmod := Nat.mod_lt n.toNat hdpos
    rw [sub_mul_udiv, ← toNat_inj, hcut, toNat_umod]
    omega
  · simp only [moddi3, smod64, sdiv64_eq n hd, bind_eq_bind, bind_some,
      pure_def, map_some, sub_mul_sdiv]
  · have hlt : (n.toInt.tmod d.toInt).natAbs < d.toInt.natAbs := by
      rw [Int.natAbs_tmod]
      refine Nat.mod_lt _ (Int.natAbs_pos.mpr fun h => hd ?_)
      exact eq_of_toInt_eq h
    rw [sub_mul_sdiv, ← toInt_inj, toInt_cut, toInt_srem]
    generalize n.toInt.tmod d.toInt = r at *
    constructor
    · rintro ⟨heq, -⟩
      have hlow := Int.le_bmod (x := r) (m := 2 ^ 32) (by decide)
      have hhigh := Int.bmod_lt (x := r) (m := 2 ^ 32) (by decide)
      omega
    · rintro ⟨hlow, hhigh⟩
      have heq : r.bmod (2 ^ 32) = r := Int.bmod_eq_of_le (by omega) (by omega)
      rw [heq]
      exact ⟨rfl, hlt⟩

theorem mod64_right_seven : ∃ q r, udivdi3 7#64 5#64 = some q ∧ umoddi3 7#64 5#64 = some r ∧
    r = 7#64 - 5#64 * q := by
  obtain ⟨q, r, hq, hr, hiff⟩ := (mod64_right_iff 7#64 5#64 (by decide)).1
  exact ⟨q, r, hq, hr, (hiff.mpr (by decide)).1⟩

/-- `2 ^ 32 mod (2 ^ 32 + 1)` is `2 ^ 32`, and `-2 ^ 32` for the negated number; both functions
return 0. -/
theorem mod64_cut : umoddi3 0x100000000#64 0x100000001#64 = some 0#64 ∧
    udivdi3 0x100000000#64 0x100000001#64 = some 0#64 ∧
    moddi3 (-0x100000000#64) 0x100000001#64 = some 0#64 ∧
    divdi3 (-0x100000000#64) 0x100000001#64 = some 0#64 := by
  decide

end Pintos
