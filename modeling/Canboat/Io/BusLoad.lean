import Canboat.Io.NmeaDevice

/-!
# The load of the bus

The percentage that the gateway reports of two reads of the kernel's counters, against the traffic
that the counters grew by.
-/

namespace Canboat

/-! ## The counters of the kernel -/

/-- What the kernel counts, in 64 bits and never less than before. -/
structure KernelCounters where
  rxBytes : UInt64
  txBytes : UInt64
  rxPackets : UInt64
  txPackets : UInt64

/-- `v as u32`. -/
def readSysfsCounter (v : UInt64) : UInt32 := v.toUInt32

def readLoadSample (k : KernelCounters) (nowMs : UInt64) : LoadSample where
  rxBytes := (readSysfsCounter k.rxBytes).toUInt64
  txBytes := (readSysfsCounter k.txBytes).toUInt64
  rxPackets := (readSysfsCounter k.rxPackets).toUInt64
  txPackets := (readSysfsCounter k.txPackets).toUInt64
  atMs := nowMs

/-- The sample that the device takes when it emits its status. -/
theorem Counters.sample_eq (c : Counters) (k : KernelCounters) (now : UInt64)
    (h : c.load = some (readSysfsCounter k.rxBytes, readSysfsCounter k.txBytes,
      readSysfsCounter k.rxPackets, readSysfsCounter k.txPackets)) :
    c.sample now = some (readLoadSample k now) := by
  rw [Counters.sample, h]
  rfl

/-! ## The true traffic -/

/-- One counter of the next read: not less, and by less than `2 ^ 32` more. -/
def Grows (prev curr : UInt64) : Prop :=
  prev.toNat ≤ curr.toNat ∧ curr.toNat - prev.toNat < 4294967296

/-- A multiple of `2 ^ 32` lies after the one and up to the other. -/
def Turns (prev curr : UInt64) : Prop :=
  prev.toNat / 4294967296 < curr.toNat / 4294967296

instance (prev curr : UInt64) : Decidable (Turns prev curr) :=
  inferInstanceAs (Decidable (_ < _))

namespace KernelCounters

structure Grows (prev curr : KernelCounters) : Prop where
  rxBytes : Canboat.Grows prev.rxBytes curr.rxBytes
  txBytes : Canboat.Grows prev.txBytes curr.txBytes
  rxPackets : Canboat.Grows prev.rxPackets curr.rxPackets
  txPackets : Canboat.Grows prev.txPackets curr.txPackets

/-- Some counter passes a multiple of `2 ^ 32`. -/
def Passes (prev curr : KernelCounters) : Prop :=
  Turns prev.rxBytes curr.rxBytes ∨ Turns prev.txBytes curr.txBytes ∨
    Turns prev.rxPackets curr.rxPackets ∨ Turns prev.txPackets curr.txPackets

instance (prev curr : KernelCounters) : Decidable (Passes prev curr) :=
  inferInstanceAs (Decidable (_ ∨ _ ∨ _ ∨ _))

/-- The bits of the traffic between two reads, before stuffing. -/
def bits (prev curr : KernelCounters) : ℕ :=
  8 * ((curr.rxBytes.toNat - prev.rxBytes.toNat) + (curr.txBytes.toNat - prev.txBytes.toNat)) +
    CAN_EFF_OVERHEAD_BITS *
      ((curr.rxPackets.toNat - prev.rxPackets.toNat) + (curr.txPackets.toNat - prev.txPackets.toNat))

/-- The percentage of the bitrate that the traffic took. -/
def trueLoad (prev curr : KernelCounters) (bitrateBps dtMs : ℕ) : ℕ :=
  min 100 (bits prev curr * STUFFING_NUMER / STUFFING_DENOM * 100000 / (bitrateBps * dtMs))

/-- The traffic takes all that the bitrate leaves. -/
def Fills (prev curr : KernelCounters) (bitrateBps dtMs : ℕ) : Prop :=
  100 * (bitrateBps * dtMs) ≤ bits prev curr * STUFFING_NUMER / STUFFING_DENOM * 100000

end KernelCounters

/-! ## One counter -/

/-- The growth of a counter as the gateway sees it. -/
def seenGrowth (prev curr : UInt64) : ℕ :=
  ((readSysfsCounter curr).toUInt64 - (readSysfsCounter prev).toUInt64).toNat

theorem toNat_readSysfsCounter (v : UInt64) :
    (readSysfsCounter v).toUInt64.toNat = v.toNat % 4294967296 := rfl

theorem seenGrowth_of_not_passes {prev curr : UInt64} (h : Grows prev curr)
    (hpass : ¬Turns prev curr) : seenGrowth prev curr = curr.toNat - prev.toNat := by
  have hle : (readSysfsCounter prev).toUInt64 ≤ (readSysfsCounter curr).toUInt64 := by
    rw [UInt64.le_iff_toNat_le, toNat_readSysfsCounter, toNat_readSysfsCounter]
    have hmono := h.1
    rw [Turns] at hpass
    omega
  rw [seenGrowth, UInt64.toNat_sub_of_le _ _ hle, toNat_readSysfsCounter, toNat_readSysfsCounter]
  have hmono := h.1
  rw [Turns] at hpass
  omega

/-- The difference of the low halves wraps around in 64 bits. -/
theorem seenGrowth_of_passes {prev curr : UInt64} (h : Grows prev curr) (hpass : Turns prev curr) :
    18446744069414584320 ≤ seenGrowth prev curr := by
  rw [seenGrowth, UInt64.toNat_sub, toNat_readSysfsCounter, toNat_readSysfsCounter]
  have hgrowth := h.2
  rw [Turns] at hpass
  omega

/-! ## The percentage -/

theorem saturate_of_le {n : ℕ} (h : n ≤ 18446744073709551615) : saturate n = n := Nat.min_eq_left h

theorem saturate_of_ge {n : ℕ} (h : 18446744073709551615 ≤ n) :
    saturate n = 18446744073709551615 := Nat.min_eq_right h

/-- What the gateway makes of the growth that it sees. -/
def seenBits (dBytes dPackets : ℕ) : ℕ :=
  saturate (saturate (saturate (saturate dBytes * 8) +
    saturate (saturate dPackets * CAN_EFF_OVERHEAD_BITS)) * STUFFING_NUMER) / STUFFING_DENOM

variable {prev curr : KernelCounters} {before now : UInt64} {bitrateBps : UInt32}

theorem computeLoadPct_eq (hbitrate : 0 < bitrateBps.toNat) (htime : before.toNat < now.toNat) :
    computeLoadPct (readLoadSample prev before) (readLoadSample curr now) bitrateBps =
      some (UInt8.ofNat (min (saturate
        (seenBits (seenGrowth prev.rxBytes curr.rxBytes + seenGrowth prev.txBytes curr.txBytes)
          (seenGrowth prev.rxPackets curr.rxPackets + seenGrowth prev.txPackets curr.txPackets) *
            100000) / saturate (bitrateBps.toNat * (now.toNat - before.toNat))) 100)) := by
  have hpos : 0 < bitrateBps.toNat * (now.toNat - before.toNat) :=
    Nat.mul_pos hbitrate (Nat.sub_pos_of_lt htime)
  have hdenom : saturate (bitrateBps.toNat * (now.toNat - before.toNat)) ≠ 0 := by
    rw [saturate]
    omega
  have hdt : ¬(now.toNat - before.toNat = 0 ∨ bitrateBps = 0) := by
    rintro (h | h)
    · omega
    · rw [h] at hbitrate
      exact absurd hbitrate (Nat.lt_irrefl 0)
  exact (if_neg hdt).trans (if_neg hdenom)

/-- Without a wrap no step saturates, but for a denominator far above the bits. -/
theorem pct_of_small {dBytes dPackets denom : ℕ} (hbytes : dBytes < 8589934592)
    (hpackets : dPackets < 8589934592) :
    saturate (seenBits dBytes dPackets * 100000) / saturate denom =
      (8 * dBytes + CAN_EFF_OVERHEAD_BITS * dPackets) * STUFFING_NUMER / STUFFING_DENOM * 100000 /
        denom := by
  have hbits : seenBits dBytes dPackets =
      (8 * dBytes + CAN_EFF_OVERHEAD_BITS * dPackets) * STUFFING_NUMER / STUFFING_DENOM := by
    rw [seenBits, saturate_of_le (by omega : dBytes ≤ _), saturate_of_le (by omega : dPackets ≤ _),
      saturate_of_le (by omega : dBytes * 8 ≤ _), Nat.mul_comm dBytes 8, Nat.mul_comm dPackets]
    simp only [CAN_EFF_OVERHEAD_BITS, STUFFING_NUMER]
    have hoverhead : saturate (67 * dPackets) = 67 * dPackets := saturate_of_le (by omega)
    have hraw : saturate (8 * dBytes + 67 * dPackets) = 8 * dBytes + 67 * dPackets :=
      saturate_of_le (by omega)
    rw [hoverhead, hraw, saturate_of_le (by omega)]
  rw [hbits]
  generalize hcarried : (8 * dBytes + CAN_EFF_OVERHEAD_BITS * dPackets) * STUFFING_NUMER /
    STUFFING_DENOM = carried
  have hsmall : carried * 100000 < 18446744073709551615 := by
    rw [← hcarried]
    simp only [CAN_EFF_OVERHEAD_BITS, STUFFING_NUMER, STUFFING_DENOM]
    omega
  rw [saturate_of_le hsmall.le]
  rcases Nat.le_total denom 18446744073709551615 with hdenom | hdenom
  · rw [saturate_of_le hdenom]
  · rw [saturate_of_ge hdenom, Nat.div_eq_of_lt hsmall, Nat.div_eq_of_lt (hsmall.trans_le hdenom)]

/-- A wrapped counter saturates every step. -/
theorem pct_of_wrapped {dBytes dPackets : ℕ}
    (h : 18446744069414584320 ≤ dBytes ∨ 18446744069414584320 ≤ dPackets) :
    saturate (seenBits dBytes dPackets * 100000) = 18446744073709551615 := by
  apply saturate_of_ge
  have hraw : saturate (saturate (saturate dBytes * 8) +
      saturate (saturate dPackets * CAN_EFF_OVERHEAD_BITS)) = 18446744073709551615 := by
    apply saturate_of_ge
    simp only [saturate, CAN_EFF_OVERHEAD_BITS]
    omega
  rw [seenBits, hraw]
  decide

/-- What a wrapped counter makes of any bitrate is never nothing. -/
theorem saturated_pct {denom : ℕ} (hpos : 0 < denom) :
    1 ≤ 18446744073709551615 / saturate denom ∧
      (18446744073709551615 / saturate denom < 100 → 184467440737095516 < denom) := by
  have hle : saturate denom ≤ 18446744073709551615 := Nat.min_le_right _ _
  have hdenom : 0 < saturate denom := by
    rw [saturate]
    omega
  refine ⟨Nat.div_pos hle hdenom, fun h => ?_⟩
  have hlt := (Nat.div_lt_iff_lt_mul hdenom).mp h
  rw [saturate] at hlt
  omega

theorem toNat_pct (n : ℕ) : (UInt8.ofNat (min n 100)).toNat = min 100 n := by
  rw [UInt8.toNat_ofNat', Nat.min_comm]
  exact Nat.mod_eq_of_lt (by omega)

namespace KernelCounters

/-- The growth of the bytes, or of the packets, that the gateway sees. -/
theorem seen_of_not_passes (h : prev.Grows curr) (hpass : ¬prev.Passes curr) :
    seenGrowth prev.rxBytes curr.rxBytes + seenGrowth prev.txBytes curr.txBytes =
      (curr.rxBytes.toNat - prev.rxBytes.toNat) + (curr.txBytes.toNat - prev.txBytes.toNat) ∧
    seenGrowth prev.rxPackets curr.rxPackets + seenGrowth prev.txPackets curr.txPackets =
      (curr.rxPackets.toNat - prev.rxPackets.toNat) +
        (curr.txPackets.toNat - prev.txPackets.toNat) := by
  simp only [Passes, not_or] at hpass
  obtain ⟨hrxBytes, htxBytes, hrxPackets, htxPackets⟩ := hpass
  rw [seenGrowth_of_not_passes h.rxBytes hrxBytes, seenGrowth_of_not_passes h.txBytes htxBytes,
    seenGrowth_of_not_passes h.rxPackets hrxPackets, seenGrowth_of_not_passes h.txPackets htxPackets]
  exact ⟨rfl, rfl⟩

theorem seen_of_passes (h : prev.Grows curr) (hpass : prev.Passes curr) :
    18446744069414584320 ≤
      seenGrowth prev.rxBytes curr.rxBytes + seenGrowth prev.txBytes curr.txBytes ∨
    18446744069414584320 ≤
      seenGrowth prev.rxPackets curr.rxPackets + seenGrowth prev.txPackets curr.txPackets := by
  rcases hpass with hpass | hpass | hpass | hpass
  · exact Or.inl ((seenGrowth_of_passes h.rxBytes hpass).trans (Nat.le_add_right _ _))
  · exact Or.inl ((seenGrowth_of_passes h.txBytes hpass).trans (Nat.le_add_left _ _))
  · exact Or.inr ((seenGrowth_of_passes h.rxPackets hpass).trans (Nat.le_add_right _ _))
  · exact Or.inr ((seenGrowth_of_passes h.txPackets hpass).trans (Nat.le_add_left _ _))

/-- So much traffic at the most, between two reads. -/
theorem onWire_lt (h : prev.Grows curr) :
    bits prev curr * STUFFING_NUMER / STUFFING_DENOM * 100000 < 184467440737095516 := by
  have hrxBytes := h.rxBytes.2
  have htxBytes := h.txBytes.2
  have hrxPackets := h.rxPackets.2
  have htxPackets := h.txPackets.2
  simp only [bits, CAN_EFF_OVERHEAD_BITS, STUFFING_NUMER, STUFFING_DENOM]
  omega

/-- **The reported load** is that of the true traffic while no counter passes a multiple of
`2 ^ 32`, and after that only where the traffic fills the bus. -/
theorem load_eq_iff (hgrows : prev.Grows curr) (hbitrate : 0 < bitrateBps.toNat)
    (htime : before.toNat < now.toNat) :
    (computeLoadPct (readLoadSample prev before) (readLoadSample curr now) bitrateBps).map
        UInt8.toNat =
      some (trueLoad prev curr bitrateBps.toNat (now.toNat - before.toNat)) ↔
    ¬prev.Passes curr ∨ Fills prev curr bitrateBps.toNat (now.toNat - before.toNat) := by
  have hdenom : 0 < bitrateBps.toNat * (now.toNat - before.toNat) :=
    Nat.mul_pos hbitrate (Nat.sub_pos_of_lt htime)
  rw [computeLoadPct_eq hbitrate htime, Option.map_some, toNat_pct, Option.some.injEq, trueLoad]
  by_cases hpass : prev.Passes curr
  · -- the gateway reports what a full counter makes of the bitrate
    rw [pct_of_wrapped (seen_of_passes hgrows hpass), Fills]
    have hwire := onWire_lt hgrows
    generalize bits prev curr * STUFFING_NUMER / STUFFING_DENOM * 100000 = wire at hwire ⊢
    generalize bitrateBps.toNat * (now.toNat - before.toNat) = denom at hdenom ⊢
    obtain ⟨hone, hbelow⟩ := saturated_pct hdenom
    have hfull : 100 ≤ wire / denom ↔ 100 * denom ≤ wire := Nat.le_div_iff_mul_le hdenom
    constructor
    · intro hsame
      refine Or.inr (hfull.mp ?_)
      by_cases hall : 18446744073709551615 / saturate denom < 100
      · have hnone : wire / denom = 0 := Nat.div_eq_of_lt (hwire.trans (hbelow hall))
        omega
      · omega
    · rintro (hnot | hfills)
      · exact absurd hpass hnot
      · have hall : ¬18446744073709551615 / saturate denom < 100 := by
          intro hless
          have hlarge := hbelow hless
          omega
        have hload := hfull.mpr hfills
        omega
  · obtain ⟨hbytes, hpackets⟩ := seen_of_not_passes hgrows hpass
    rw [hbytes, hpackets, pct_of_small]
    · exact iff_of_true rfl (Or.inl hpass)
    · have hrx := hgrows.rxBytes.2
      have htx := hgrows.txBytes.2
      omega
    · have hrx := hgrows.rxPackets.2
      have htx := hgrows.txPackets.2
      omega

/-- A single byte, from just below `2 ^ 32`, and five seconds at 250 kbit/s. -/
theorem phantom_load :
    let prev : KernelCounters := ⟨4294967295, 0, 0, 0⟩
    let curr : KernelCounters := ⟨4294967296, 0, 0, 0⟩
    prev.Grows curr ∧ trueLoad prev curr 250000 5000 = 0 ∧
      (computeLoadPct (readLoadSample prev 0) (readLoadSample curr 5000) 250000).map UInt8.toNat =
        some 100 := by
  refine ⟨⟨⟨?_, ?_⟩, ⟨?_, ?_⟩, ⟨?_, ?_⟩, ⟨?_, ?_⟩⟩, ?_, ?_⟩
  all_goals decide

theorem load_eq_iff_thousand :
    let prev : KernelCounters := ⟨0, 0, 0, 0⟩
    let curr : KernelCounters := ⟨8000, 0, 1000, 0⟩
    (computeLoadPct (readLoadSample prev 0) (readLoadSample curr 5000) 250000).map UInt8.toNat =
      some (trueLoad prev curr (250000 : UInt32).toNat
        ((5000 : UInt64).toNat - (0 : UInt64).toNat)) := by
  refine (load_eq_iff ⟨⟨?_, ?_⟩, ⟨?_, ?_⟩, ⟨?_, ?_⟩, ⟨?_, ?_⟩⟩ ?_ ?_).mpr (Or.inl ?_)
  all_goals decide

end KernelCounters

end Canboat
