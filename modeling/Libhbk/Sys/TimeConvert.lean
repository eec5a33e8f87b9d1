import Libhbk.Base.Fraction
import Mathlib.Data.Nat.ModEq
import Mathlib.Data.Nat.GCD.Basic

/-!
# NTP time stamps

An NTP time stamp has the seconds since 1900 and a fraction of `2 ^ 32` parts a second. The encoders of
`TimeConvert` shift by 32 and divide in 64 bits, the decoders multiply by the units and shift back.
-/

namespace Libhbk.TimeConvert

open Fraction

/-- Seconds from the NTP epoch to the unix epoch. -/
def ntpSecondOffset : UInt32 := 2208988800

structure NtpStruct where
  seconds : UInt32
  fractions : UInt32
  deriving DecidableEq, Repr

/-- `timeval`, with the 64 bit types of Linux. -/
structure Timeval where
  tv_sec : Int64
  tv_usec : Int64
  deriving DecidableEq

/-- Units of a second as a fraction; the whole seconds are cut off. -/
def units2Ntpfraction (perSecond : UInt64) (units : UInt32) : UInt32 := (units.toUInt64 <<< 32 / perSecond).toUInt32

def microseconds2Ntpfraction (microseconds : UInt32) : UInt32 := units2Ntpfraction 1000000 microseconds

def nanoseconds2Ntpfraction (nanoseconds : UInt32) : UInt32 := units2Ntpfraction 1000000000 nanoseconds

def nanoseconds2NtpStruct (nanoseconds : UInt64) : NtpStruct :=
  let res := nanoseconds <<< 32
  ⟨(nanoseconds / 1000000000).toUInt32, (res / 1000000000).toUInt32⟩

/-- `unixtime2Ntp(timeval)`. -/
def unixtime2Ntp (unixTime : Timeval) : UInt64 :=
  let ntptimestamp := (unixTime.tv_sec + ntpSecondOffset.toUInt64.toInt64).toUInt64
  ntptimestamp <<< 32 ||| (microseconds2Ntpfraction unixTime.tv_usec.toUInt64.toUInt32).toUInt64

/-- `unixtime2NtpStruct(timeval)`. -/
def unixtime2NtpStruct (unixTime : Timeval) : NtpStruct :=
  ⟨(unixTime.tv_sec + ntpSecondOffset.toUInt64.toInt64).toUInt64.toUInt32,
    microseconds2Ntpfraction unixTime.tv_usec.toUInt64.toUInt32⟩

def ntpfraction2microseconds (ntpfraction : UInt32) : UInt32 :=
  -- the sum has 32 bits
  let res := (ntpfraction + 1).toUInt64
  ((res * 1000000) >>> 32).toUInt32

def ntpfraction2nanoseconds (ntpfraction : UInt32) : UInt32 :=
  let res := ntpfraction.toUInt64 + 1
  ((res * 1000000000) >>> 32).toUInt32

/-! ### In numbers -/

theorem toNat_shiftLeft_32 (x : UInt64) : (x <<< 32).toNat = x.toNat * 2 ^ 32 % 2 ^ 64 := by
  rw [UInt64.toNat_shiftLeft, Nat.shiftLeft_eq]
  rfl

theorem toNat_shiftRight_32 (x : UInt64) : (x >>> 32).toNat = x.toNat / 2 ^ 32 := by
  rw [UInt64.toNat_shiftRight, Nat.shiftRight_eq_div_pow]
  rfl

theorem toNat_units2Ntpfraction (perSecond : UInt64) (hpos : 0 < perSecond.toNat) (units : UInt32) :
    (units2Ntpfraction perSecond units).toNat = encode perSecond.toNat (2 ^ 32) (units.toNat % perSecond.toNat) := by
  have hunits := units.toNat_lt
  have hfits : units.toNat * 2 ^ 32 < 2 ^ 64 := by omega
  rw [units2Ntpfraction, UInt64.toNat_toUInt32, UInt64.toNat_div, toNat_shiftLeft_32, UInt32.toNat_toUInt64,
    Nat.mod_eq_of_lt hfits]
  exact encode_mod hpos (by decide) units.toNat

theorem toNat_microseconds2Ntpfraction (x : UInt32) :
    (microseconds2Ntpfraction x).toNat = encode 1000000 (2 ^ 32) (x.toNat % 1000000) :=
  toNat_units2Ntpfraction 1000000 (by decide) x

theorem toNat_nanoseconds2Ntpfraction (x : UInt32) :
    (nanoseconds2Ntpfraction x).toNat = encode 1000000000 (2 ^ 32) (x.toNat % 1000000000) :=
  toNat_units2Ntpfraction 1000000000 (by decide) x

theorem toNat_ntpfraction2microseconds (f : UInt32) :
    (ntpfraction2microseconds f).toNat = if f.toNat = 2 ^ 32 - 1 then 0 else decode 1000000 (2 ^ 32) f.toNat := by
  have hf := f.toNat_lt
  have hsum : ((f + 1).toUInt64 * 1000000).toNat = (f.toNat + 1) % 2 ^ 32 * 1000000 := by
    rw [UInt64.toNat_mul, UInt32.toNat_toUInt64, UInt32.toNat_add]
    have hmod := Nat.mod_lt (f.toNat + 1) (show 0 < 2 ^ 32 by decide)
    exact Nat.mod_eq_of_lt (by change (f.toNat + 1) % 2 ^ 32 * 1000000 < 2 ^ 64; omega)
  rw [ntpfraction2microseconds, UInt64.toNat_toUInt32, toNat_shiftRight_32, hsum, decode]
  split
  · next hlast =>
    have hwraps : (f.toNat + 1) % 2 ^ 32 = 0 := by omega
    rw [hwraps, Nat.zero_mul, Nat.zero_div, Nat.zero_mod]
  · next hlast =>
    have hfits : f.toNat + 1 < 2 ^ 32 := by omega
    rw [Nat.mod_eq_of_lt hfits]
    omega

theorem toNat_ntpfraction2nanoseconds (f : UInt32) :
    (ntpfraction2nanoseconds f).toNat = decode 1000000000 (2 ^ 32) f.toNat := by
  have hf := f.toNat_lt
  have hsum : ((f.toUInt64 + 1) * 1000000000).toNat = (f.toNat + 1) * 1000000000 := by
    rw [UInt64.toNat_mul, UInt64.toNat_add, UInt32.toNat_toUInt64]
    change (f.toNat + 1) % 2 ^ 64 * 1000000000 % 2 ^ 64 = _
    omega
  rw [ntpfraction2nanoseconds, UInt64.toNat_toUInt32, toNat_shiftRight_32, hsum, decode]
  omega

/-! ### Encoding and decoding -/

theorem microseconds2Ntpfraction_ne (x : UInt32) : (microseconds2Ntpfraction x).toNat ≠ 2 ^ 32 - 1 := by
  have hx := Nat.mod_lt x.toNat (show 0 < 1000000 by decide)
  rw [toNat_microseconds2Ntpfraction, encode]
  omega

theorem decode_microseconds (x : UInt32) :
    (ntpfraction2microseconds (microseconds2Ntpfraction x)).toNat = x.toNat % 1000000 := by
  rw [toNat_ntpfraction2microseconds, if_neg (microseconds2Ntpfraction_ne x), toNat_microseconds2Ntpfraction]
  exact decode_of_encode (by decide) (by decide) _

theorem decode_nanoseconds (x : UInt32) :
    (ntpfraction2nanoseconds (nanoseconds2Ntpfraction x)).toNat = x.toNat % 1000000000 := by
  rw [toNat_ntpfraction2nanoseconds, toNat_nanoseconds2Ntpfraction]
  exact decode_of_encode (by decide) (by decide) _

/-- **Decoding undoes encoding**, apart from whole seconds. -/
theorem ntpfraction_round_trip (x : UInt32) :
    ntpfraction2microseconds (microseconds2Ntpfraction x) = x % 1000000 ∧
      ntpfraction2nanoseconds (nanoseconds2Ntpfraction x) = x % 1000000000 := by
  constructor
  · apply UInt32.toNat_inj.mp
    exact decode_microseconds x
  · apply UInt32.toNat_inj.mp
    exact decode_nanoseconds x

/-! ### Nanoseconds since an epoch -/

/-- What `nanoseconds2NtpStruct` should give. -/
structure Exact (nanoseconds : UInt64) : Prop where
  seconds : (nanoseconds2NtpStruct nanoseconds).seconds.toNat = nanoseconds.toNat / 1000000000
  fractions : (nanoseconds2NtpStruct nanoseconds).fractions.toNat =
    nanoseconds.toNat % 1000000000 * 2 ^ 32 / 1000000000
  decoded : (nanoseconds2NtpStruct nanoseconds).seconds.toNat * 1000000000 +
    (ntpfraction2nanoseconds (nanoseconds2NtpStruct nanoseconds).fractions).toNat = nanoseconds.toNat
  encoded : (nanoseconds2NtpStruct nanoseconds).fractions =
    nanoseconds2Ntpfraction (nanoseconds % 1000000000).toUInt32

theorem toNat_fractions (ns : UInt64) :
    (nanoseconds2NtpStruct ns).fractions.toNat =
      encode 1000000000 (2 ^ 32) (ns.toNat % 2 ^ 32 % 1000000000) := by
  have hshift : ns.toNat * 2 ^ 32 % 2 ^ 64 = ns.toNat % 2 ^ 32 * 2 ^ 32 := by omega
  have hfractions : (nanoseconds2NtpStruct ns).fractions.toNat = (ns <<< 32 / 1000000000).toNat % 2 ^ 32 :=
    UInt64.toNat_toUInt32 _
  rw [hfractions, UInt64.toNat_div, toNat_shiftLeft_32, hshift]
  exact encode_mod (by decide) (by decide) _

theorem toNat_seconds (ns : UInt64) (h : ns.toNat / 1000000000 < 2 ^ 32) :
    (nanoseconds2NtpStruct ns).seconds.toNat = ns.toNat / 1000000000 := by
  have hseconds : (nanoseconds2NtpStruct ns).seconds.toNat = (ns / 1000000000).toNat % 2 ^ 32 :=
    UInt64.toNat_toUInt32 _
  rw [hseconds, UInt64.toNat_div]
  exact Nat.mod_eq_of_lt h

theorem toNat_subsecond (ns : UInt64) : (ns % 1000000000).toUInt32.toNat = ns.toNat % 1000000000 := by
  have hsecond : (1000000000 : UInt64).toNat = 1000000000 := by decide
  rw [UInt64.toNat_toUInt32, UInt64.toNat_mod, hsecond]
  omega

/-- The lower 32 bits have the same fraction of a second exactly if the upper ones are a multiple of `5 ^ 9`. -/
theorem mod_eq_iff (ns : Nat) :
    ns % 2 ^ 32 % 1000000000 = ns % 1000000000 ↔ ns / 2 ^ 32 % 5 ^ 9 = 0 := by
  have hupper : ns - ns % 2 ^ 32 = 2 ^ 9 * (2 ^ 23 * (ns / 2 ^ 32)) := by omega
  have hcoprime : Nat.Coprime (5 ^ 9) (2 ^ 23) := by decide
  rw [← Nat.dvd_iff_mod_eq_zero, ← hcoprime.dvd_mul_left]
  change ns % 2 ^ 32 ≡ ns [MOD 2 ^ 9 * 5 ^ 9] ↔ _
  rw [Nat.modEq_iff_dvd' (Nat.mod_le _ _), hupper]
  exact Nat.mul_dvd_mul_iff_left (by decide)

/-- **Exact nanoseconds.** Seconds and fraction are those of the count exactly if bits 32 to 63 are a multiple of
`5 ^ 9`, as they are for a count below `2 ^ 32`. -/
theorem nanoseconds2NtpStruct_exact_iff (ns : UInt64) (h : ns.toNat / 1000000000 < 2 ^ 32) :
    Exact ns ↔ ns.toNat / 2 ^ 32 % 5 ^ 9 = 0 := by
  have hfractions := toNat_fractions ns
  have hseconds := toNat_seconds ns h
  rw [← mod_eq_iff]
  constructor
  · intro hexact
    have henc : encode 1000000000 (2 ^ 32) (ns.toNat % 2 ^ 32 % 1000000000) =
        encode 1000000000 (2 ^ 32) (ns.toNat % 1000000000) := by
      rw [← hfractions, hexact.fractions, encode]
    exact (encode_inj (by decide) (by decide)).mp henc
  · intro hmod
    rw [hmod] at hfractions
    refine ⟨hseconds, hfractions, ?_, ?_⟩
    · rw [hseconds, toNat_ntpfraction2nanoseconds, hfractions, decode_of_encode (by decide) (by decide)]
      exact Nat.div_add_mod' ns.toNat 1000000000
    · apply UInt32.toNat_inj.mp
      refine hfractions.trans ?_
      rw [toNat_nanoseconds2Ntpfraction, toNat_subsecond, Nat.mod_mod]

/-- Half a second; and a count with `5 ^ 9` in its upper bits. -/
theorem nanoseconds2NtpStruct_exact : Exact 500000000 ∧ Exact 8388608000000000 :=
  ⟨(nanoseconds2NtpStruct_exact_iff _ (by decide)).mpr (by decide),
    (nanoseconds2NtpStruct_exact_iff _ (by decide)).mpr (by decide)⟩

/-- 4.5 s has the fraction of 0.205032704 s. -/
theorem nanoseconds_wrap :
    ¬ ∀ ns : UInt64, ns.toNat / 1000000000 < 2 ^ 32 → Exact ns := by
  intro h
  have hexact := h 4500000000 (by decide)
  exact absurd hexact.fractions (by decide)

/-! ### Any fraction -/

/-- What the decoders should do with the fractions `f` and `g`, of which `g` is not the smaller one. -/
structure Ordered (f g : UInt32) : Prop where
  microseconds_le : ntpfraction2microseconds f ≤ 999999
  nanoseconds_le : ntpfraction2nanoseconds f ≤ 999999999
  microseconds_mono : ntpfraction2microseconds f ≤ ntpfraction2microseconds g
  nanoseconds_mono : ntpfraction2nanoseconds f ≤ ntpfraction2nanoseconds g
  agree : ntpfraction2microseconds f = ntpfraction2nanoseconds f / 1000

theorem toNat_microseconds_of_lt {f : UInt32} (hf : f.toNat + 1 < 2 ^ 32) :
    (ntpfraction2microseconds f).toNat = decode 1000000 (2 ^ 32) f.toNat := by
  rw [toNat_ntpfraction2microseconds, if_neg (by omega)]

theorem toNat_microseconds_last {f : UInt32} (hf : f.toNat + 1 = 2 ^ 32) :
    (ntpfraction2microseconds f).toNat = 0 := by
  rw [toNat_ntpfraction2microseconds, if_pos (by omega)]

theorem decode_microseconds_eq_zero (f : Nat) : decode 1000000 (2 ^ 32) f = 0 ↔ f < 4294 := by
  unfold decode
  omega

theorem ordered_iff_of_lt {f g : UInt32} (hfg : f ≤ g) (hf : f.toNat + 1 < 2 ^ 32) :
    Ordered f g ↔ ntpfraction2microseconds f ≤ ntpfraction2microseconds g := by
  refine ⟨Ordered.microseconds_mono, fun hmono => ⟨?_, ?_, hmono, ?_, ?_⟩⟩
  · rw [UInt32.le_iff_toNat_le, toNat_microseconds_of_lt hf]
    exact Nat.le_of_lt_succ ((decode_lt_iff (by decide) (by decide) f.toNat).mpr hf)
  · rw [UInt32.le_iff_toNat_le, toNat_ntpfraction2nanoseconds]
    exact Nat.le_of_lt_succ ((decode_lt_iff (by decide) (by decide) f.toNat).mpr hf)
  · rw [UInt32.le_iff_toNat_le, toNat_ntpfraction2nanoseconds, toNat_ntpfraction2nanoseconds]
    exact decode_mono (UInt32.le_iff_toNat_le.mp hfg)
  · apply UInt32.toNat_inj.mp
    rw [UInt32.toNat_div, toNat_microseconds_of_lt hf, toNat_ntpfraction2nanoseconds]
    exact (decode_div (n := 1000000) (k := 1000) (by decide) f.toNat).symm

/-- **Decoders.** They are in range, in order and agree exactly if the upper fraction is not the last one, or the
lower one gives no microseconds. -/
theorem ntpfraction_ordered_iff {f g : UInt32} (hfg : f ≤ g) :
    Ordered f g ↔ g ≠ 0xffffffff ∨ f < 4294 := by
  have hlast : g = 0xffffffff ↔ g.toNat + 1 = 2 ^ 32 := by
    rw [← UInt32.toNat_inj]
    exact Nat.succ_inj.symm
  have hle := UInt32.le_iff_toNat_le.mp hfg
  have hg := g.toNat_lt
  rw [Ne, hlast, UInt32.lt_iff_toNat_lt]
  by_cases hf : f.toNat + 1 < 2 ^ 32
  · rw [ordered_iff_of_lt hfg hf, UInt32.le_iff_toNat_le, toNat_microseconds_of_lt hf]
    by_cases hglast : g.toNat + 1 = 2 ^ 32
    · rw [toNat_microseconds_last hglast, Nat.le_zero, decode_microseconds_eq_zero]
      exact (or_iff_right (not_not.mpr hglast)).symm
    · rw [toNat_microseconds_of_lt (by omega)]
      exact iff_of_true (decode_mono hle) (Or.inl hglast)
  · -- both are the last one, which is a second in nanoseconds
    refine iff_of_false (fun h => ?_) ?_
    · have hrange := UInt32.le_iff_toNat_le.mp h.nanoseconds_le
      rw [toNat_ntpfraction2nanoseconds] at hrange
      exact hf ((decode_lt_iff (by decide) (by decide) f.toNat).mp (Nat.lt_succ_of_le hrange))
    · change ¬ (¬ g.toNat + 1 = 2 ^ 32 ∨ f.toNat < 4294)
      omega

/-- Half a second and the last fraction but one. -/
theorem ntpfraction_ordered : Ordered 0x80000000 0xfffffffe :=
  (ntpfraction_ordered_iff (by decide)).mpr (Or.inl (by decide))

/-- The last fraction is a whole second in nanoseconds, and 0 in microseconds. -/
theorem last_fraction_unordered : ¬ ∀ f g : UInt32, f ≤ g → Ordered f g := by
  intro h
  have hlast := h 0xffffffff 0xffffffff (by decide)
  exact absurd hlast.nanoseconds_le (by decide)

/-! ### Unix time -/

/-- What the encoders of a `timeval` should give. -/
structure Encodes (unixTime : Timeval) : Prop where
  same : unixtime2Ntp unixTime =
    (unixtime2NtpStruct unixTime).seconds.toUInt64 <<< 32 ||| (unixtime2NtpStruct unixTime).fractions.toUInt64
  seconds : (((unixtime2Ntp unixTime >>> 32).toUInt32 - ntpSecondOffset).toNat : Int) =
    unixTime.tv_sec.toInt % 2 ^ 32
  microseconds : ((ntpfraction2microseconds (unixtime2Ntp unixTime).toUInt32).toNat : Int) = unixTime.tv_usec.toInt

theorem toInt_emod (x : Int64) : x.toInt % 2 ^ 64 = x.toUInt64.toNat := by
  have hx := x.toBitVec.isLt
  have hcases := BitVec.toInt_eq_toNat_cond x.toBitVec
  rw [Int64.toInt_toBitVec] at hcases
  change x.toInt % 2 ^ 64 = x.toBitVec.toNat
  split at hcases <;> omega

theorem toNat_words (upper : UInt64) (lower : UInt32) :
    (upper <<< 32 ||| lower.toUInt64).toNat = upper.toNat % 2 ^ 32 * 2 ^ 32 + lower.toNat := by
  have hupper : upper.toNat * 2 ^ 32 % 2 ^ 64 = (upper.toNat % 2 ^ 32) <<< 32 := by
    rw [Nat.shiftLeft_eq]
    omega
  rw [UInt64.toNat_or, toNat_shiftLeft_32, UInt32.toNat_toUInt64, hupper,
    ← Nat.shiftLeft_add_eq_or_of_lt lower.toNat_lt, Nat.shiftLeft_eq]

theorem upper_word (upper : UInt64) (lower : UInt32) :
    ((upper <<< 32 ||| lower.toUInt64) >>> 32).toUInt32.toNat = upper.toNat % 2 ^ 32 := by
  have hlower := lower.toNat_lt
  rw [UInt64.toNat_toUInt32, toNat_shiftRight_32, toNat_words]
  omega

theorem lower_word (upper : UInt64) (lower : UInt32) : (upper <<< 32 ||| lower.toUInt64).toUInt32 = lower := by
  have hlower := lower.toNat_lt
  apply UInt32.toNat_inj.mp
  rw [UInt64.toNat_toUInt32, toNat_words]
  omega

theorem toNat_ntpseconds (tv_sec : Int64) :
    ((tv_sec + ntpSecondOffset.toUInt64.toInt64).toUInt64.toNat : Int) = (tv_sec.toInt + 2208988800) % 2 ^ 64 := by
  have hsec := toInt_emod tv_sec
  have hoffset : ntpSecondOffset.toUInt64.toNat = 2208988800 := by decide
  rw [Int64.toUInt64_add, UInt64.toUInt64_toInt64, UInt64.toNat_add, hoffset]
  omega

/-- **Unix time.** The two encoders agree and can be undone, for every `tv_sec`, also before 1970 and after 2036. -/
theorem unixtime_encodes (unixTime : Timeval) (h0 : 0 ≤ unixTime.tv_usec.toInt)
    (hlt : unixTime.tv_usec.toInt < 1000000) : Encodes unixTime := by
  have hsec := toNat_ntpseconds unixTime.tv_sec
  constructor
  · -- shifting drops the upper half, which the struct does not have
    apply UInt64.toNat_inj.mp
    rw [unixtime2Ntp, unixtime2NtpStruct, toNat_words, toNat_words, UInt32.toNat_toUInt64, UInt64.toNat_toUInt32,
      Nat.mod_mod]
  · have hupper := upper_word (unixTime.tv_sec + ntpSecondOffset.toUInt64.toInt64).toUInt64
      (microseconds2Ntpfraction unixTime.tv_usec.toUInt64.toUInt32)
    have hoffset : ntpSecondOffset.toNat = 2208988800 := by decide
    rw [unixtime2Ntp, UInt32.toNat_sub, hupper, hoffset]
    omega
  · have husec := toInt_emod unixTime.tv_usec
    rw [unixtime2Ntp, lower_word, decode_microseconds, UInt64.toNat_toUInt32]
    omega

/-- A microsecond before 1970, and the first second of the next era. -/
theorem unixtime_encodes_eras : Encodes ⟨-1, 999999⟩ ∧ Encodes ⟨2085978496, 0⟩ :=
  ⟨unixtime_encodes _ (by decide) (by decide), unixtime_encodes _ (by decide) (by decide)⟩

end Libhbk.TimeConvert
