import Canboat.Reassembly.Table
import Canboat.Lib.BitMask
import Mathlib.Data.Finset.Range

/-!
# One fast-packet message in one slot

How a payload is cut into fast-packet frames, and what a slot knows after it
has taken in some of them. `Gathering p S s` says that slot `s` holds exactly
the frames `S` of the payload `p`. A further frame of `p` extends `S`, unless
it is the last one missing, and then the slot completes with `p`.

Nothing here depends on the order of the frames, beyond one exception of
`restarts`: a frame 0 that comes last restarts the slot.
-/

namespace Canboat

open Buffer BitMask

/-! ## Cutting a payload into frames -/

/-- Number of fast-packet frames of a payload of `len` bytes. -/
def frameCount (len : ℕ) : ℕ := 1 + len / BUCKET_N_SIZE

/-- The frame that carries byte `k`. -/
def frameOf (k : ℕ) : ℕ := (k + 1) / BUCKET_N_SIZE

/-- The payload bytes of frame `i`: six in frame 0, up to seven in a later one. -/
def chunk (p : List UInt8) (i : ℕ) : List UInt8 :=
  (p.drop (bucket i).1).take (bucket i).2.2

/-- Frame `i` of payload `p`, before any padding: sequence counter and index,
the length byte in frame 0, and the chunk. -/
def fragment (seq : UInt8) (p : List UInt8) (i : ℕ) : List UInt8 :=
  (seq ||| UInt8.ofNat i) :: ((if i = 0 then [UInt8.ofNat p.length] else []) ++ chunk p i)

/-- A CAN frame that carries fragment `i` of `p` under `K`, whatever it is padded
with and whatever its other header fields are. -/
structure IsFragment (K : FastId) (p : List UInt8) (i : ℕ) (f : RawFrame) : Prop where
  pgn : f.pgn = K.1
  src : f.src = K.2.1
  data : fragment K.2.2 p i <+: f.data
  length : f.data.length ≤ 8

/-- A key fast-packet frames can have: not a PGN of the transport protocol, and a
sequence counter in the upper three bits. -/
structure FastId.Valid (K : FastId) : Prop where
  not_cm : K.1 ≠ PGN_ISO_TP_CM
  not_dt : K.1 ≠ PGN_ISO_TP_DT
  seq : K.2.2 &&& 0x1f = 0

theorem header_fields {seq : UInt8} (hseq : seq &&& 0x1f = 0) {i : ℕ} (hi : i < 32) :
    frameIndex (seq ||| UInt8.ofNat i) = i ∧ frameSeq (seq ||| UInt8.ofNat i) = seq := by
  have hall : ∀ b : BitVec 8, b &&& 0x1f#8 = 0#8 → ∀ j : Fin 32,
      ((b ||| BitVec.ofNat 8 j.val) &&& 0x1f#8).toNat = j.val ∧
        (b ||| BitVec.ofNat 8 j.val) &&& 0xe0#8 = b := by
    decide +kernel
  have hb : seq.toBitVec &&& 0x1f#8 = 0#8 := congrArg UInt8.toBitVec hseq
  obtain ⟨h1, h2⟩ := hall seq.toBitVec hb ⟨i, hi⟩
  exact ⟨h1, UInt8.toBitVec_inj.mp h2⟩

namespace IsFragment

variable {K : FastId} {p : List UInt8} {i : ℕ} {f : RawFrame}

theorem head (h : IsFragment K p i f) : ∃ rest, f.data = (K.2.2 ||| UInt8.ofNat i) :: rest := by
  obtain ⟨pad, hpad⟩ := h.data
  exact ⟨_, hpad.symm⟩

theorem index (h : IsFragment K p i f) (hK : K.Valid) (hi : i < 32) :
    frameIndex (f.data.headD 0) = i := by
  obtain ⟨rest, hrest⟩ := h.head
  rw [hrest]
  exact (header_fields hK.seq hi).1

theorem fastKey (h : IsFragment K p i f) (hK : K.Valid) (hi : i < 32) :
    fastKey f .Fast = some K := by
  obtain ⟨rest, hrest⟩ := h.head
  refine Reassembler.fastKey_eq_some.mpr ⟨?_, ?_, h.length, rfl, _, rest, hrest, ?_⟩
  · rw [h.pgn]
    exact hK.not_cm
  · rw [h.pgn]
    exact hK.not_dt
  · rw [(header_fields hK.seq hi).2, h.pgn, h.src]

/-- Frame 0 declares the length of the payload and the frames it needs. -/
theorem declared (h : IsFragment K p 0 f) (hp : p.length ≤ FASTPACKET_MAX_SIZE) :
    Canboat.declared f.data = (p.length, requiredFrames p.length) := by
  obtain ⟨pad, hpad⟩ := h.data
  have hbyte : (UInt8.ofNat p.length).toNat = p.length := by
    rw [UInt8.toNat_ofNat']
    unfold FASTPACKET_MAX_SIZE at hp
    exact Nat.mod_eq_of_lt (by omega)
  have hone : f.data.getD 1 0 = UInt8.ofNat p.length := by
    rw [← hpad]
    rfl
  simp only [Canboat.declared, hone, hbyte, min_eq_left hp]

/-- Behind the header of a frame its bucket starts with the frame's chunk. -/
theorem drop_prefix (h : IsFragment K p i f) :
    chunk p i <+: f.data.drop (bucket i).2.1 := by
  obtain ⟨pad, hpad⟩ := h.data
  rw [← hpad]
  unfold fragment bucket
  split
  · exact ⟨pad, rfl⟩
  · exact ⟨pad, rfl⟩

end IsFragment

/-- The plain CAN frame of a fragment: no padding, lowest priority, broadcast. -/
def fragmentFrame (K : FastId) (p : List UInt8) (i : ℕ) : RawFrame where
  timestamp := none
  prio := 7
  pgn := K.1
  src := K.2.1
  dst := ADDR_GLOBAL
  data := fragment K.2.2 p i

theorem fragmentFrame_isFragment (K : FastId) (p : List UInt8) (i : ℕ) :
    IsFragment K p i (fragmentFrame K p i) where
  pgn := rfl
  src := rfl
  data := List.prefix_rfl
  length := by
    show (fragment K.2.2 p i).length ≤ 8
    have hchunk : (chunk p i).length ≤ (bucket i).2.2 := List.length_take_le _ _
    unfold fragment
    by_cases h0 : i = 0
    · subst h0
      have hcap : (bucket 0).2.2 = 6 := rfl
      simp only [if_true, List.length_cons, List.length_append, List.length_nil]
      omega
    · have hcap : (bucket i).2.2 = 7 := by simp [bucket, h0, BUCKET_N_SIZE]
      simp only [if_neg h0, List.length_cons, List.nil_append]
      omega

/-! ## The bytes of one bucket -/

theorem bucket_bounds (i k : ℕ) :
    frameOf k = i ↔ (bucket i).1 ≤ k ∧ k < (bucket i).1 + (bucket i).2.2 := by
  unfold frameOf bucket BUCKET_N_SIZE BUCKET_0_SIZE
  split <;> simp only <;> omega

theorem getElem?_chunk (p : List UInt8) {i k : ℕ} (hk : frameOf k = i) :
    (chunk p i)[k - (bucket i).1]? = p[k]? := by
  obtain ⟨hlo, hhi⟩ := (bucket_bounds i k).mp hk
  unfold chunk
  rw [List.getElem?_take_of_lt (by omega), List.getElem?_drop]
  congr 1
  omega

/-- How many bytes of a frame its bucket takes. -/
def copyLen (i : ℕ) (d : List UInt8) : ℕ :=
  min (d.length - (bucket i).2.1)
    (min ((bucket i).1 + (bucket i).2.2) FASTPACKET_MAX_SIZE - (bucket i).1)

theorem storeBucket_eq (b d : List UInt8) (i : ℕ) :
    storeBucket b i d =
      overwrite (overwrite b (bucket i).1 ((d.drop (bucket i).2.1).take (copyLen i d)))
        ((bucket i).1 + copyLen i d)
        (List.replicate (min ((bucket i).1 + (bucket i).2.2) FASTPACKET_MAX_SIZE -
          ((bucket i).1 + copyLen i d)) 0xff) := rfl

/-- Storing a frame leaves the bytes of every other frame alone. -/
theorem storeBucket_other (b d : List UInt8) {i k : ℕ} (hk : frameOf k ≠ i) :
    (storeBucket b i d)[k]? = b[k]? := by
  have hout : k < (bucket i).1 ∨ (bucket i).1 + (bucket i).2.2 ≤ k := by
    by_contra h
    exact hk ((bucket_bounds i k).mpr ⟨by omega, by omega⟩)
  have hle : copyLen i d ≤ (bucket i).2.2 := by
    unfold copyLen
    omega
  rw [storeBucket_eq, getElem?_overwrite_of_outside, getElem?_overwrite_of_outside]
  · have := List.length_take_le (copyLen i d) (d.drop (bucket i).2.1)
    omega
  · rw [List.length_replicate]
    omega

/-- Storing frame `i` of `p` puts the bytes of `p` it carries in their place. -/
theorem storeBucket_own {K : FastId} {p b : List UInt8} {i k : ℕ} {f : RawFrame}
    (hf : IsFragment K p i f) (hb : b.length = FASTPACKET_MAX_SIZE)
    (hp : p.length ≤ FASTPACKET_MAX_SIZE) (hk : frameOf k = i) (hkp : k < p.length) :
    (storeBucket b i f.data)[k]? = p[k]? := by
  obtain ⟨hlo, hhi⟩ := (bucket_bounds i k).mp hk
  have hchunk := getElem?_chunk p hk
  obtain ⟨pad, hpad⟩ := hf.drop_prefix
  have hlen : k - (bucket i).1 < (chunk p i).length := by
    by_contra h
    rw [List.getElem?_eq_none (by omega), List.getElem?_eq_getElem hkp] at hchunk
    cases hchunk
  have hdata : k - (bucket i).1 < f.data.length - (bucket i).2.1 := by
    rw [← List.length_drop, ← hpad, List.length_append]
    omega
  have hcopy : k - (bucket i).1 < copyLen i f.data := by
    unfold copyLen
    omega
  rw [storeBucket_eq, getElem?_overwrite_of_outside (Or.inl (by omega)),
    getElem?_overwrite_of_inside hlo]
  · rw [List.getElem?_take_of_lt hcopy, ← hpad, List.getElem?_append_left hlen, hchunk]
  · rw [List.length_take, List.length_drop]
    omega
  · omega

/-! ## What a slot has gathered -/

theorem getLsbD_requiredFrames {len : ℕ} (hlen : len ≤ FASTPACKET_MAX_SIZE) {j : ℕ} (hj : j < 32) :
    (requiredFrames len).getLsbD j = decide (j < frameCount len) := by
  have hmin : min (1 + len / BUCKET_N_SIZE) (FASTPACKET_MAX_INDEX + 1) = len / 7 + 1 := by
    unfold FASTPACKET_MAX_SIZE at hlen
    unfold BUCKET_N_SIZE FASTPACKET_MAX_INDEX
    omega
  have hcount : frameCount len = len / 7 + 1 := Nat.add_comm ..
  unfold requiredFrames
  rw [hmin, hcount]
  simp only
  split_ifs with h
  · rw [BitVec.getLsbD_allOnes]
    simp only [hj, decide_true]
    exact (decide_eq_true (by omega)).symm
  · exact getLsbD_twoPow_sub_one (by omega) j

theorem frameCount_le {len : ℕ} (hlen : len ≤ FASTPACKET_MAX_SIZE) : frameCount len ≤ 32 := by
  unfold FASTPACKET_MAX_SIZE at hlen
  unfold frameCount BUCKET_N_SIZE
  omega

theorem frameCount_pos (len : ℕ) : 1 ≤ frameCount len := Nat.le_add_right ..

theorem frameOf_lt {k len : ℕ} (hk : k < len) : frameOf k < frameCount len := by
  unfold frameOf frameCount BUCKET_N_SIZE
  omega

/-- A mask that holds exactly the positions of `S`. -/
def Marks (m : BitVec 32) (S : Finset ℕ) : Prop :=
  ∀ j, j < 32 → (m.getLsbD j = true ↔ j ∈ S)

theorem marks_required {len : ℕ} (hlen : len ≤ FASTPACKET_MAX_SIZE) :
    Marks (requiredFrames len) (Finset.range (frameCount len)) := by
  intro j hj
  rw [getLsbD_requiredFrames hlen hj, decide_eq_true_iff, Finset.mem_range]

theorem marks_zero : Marks 0#32 ∅ := by
  intro j _
  simp

theorem Marks.insert {m : BitVec 32} {S : Finset ℕ} (h : Marks m S) {i : ℕ} (hi : i < 32) :
    Marks (m ||| BitVec.twoPow 32 i) (insert i S) := by
  intro j hj
  rw [getLsbD_or_twoPow hi, Bool.or_eq_true, decide_eq_true_iff, h j hj, Finset.mem_insert]
  tauto

theorem Marks.eq_iff {m m' : BitVec 32} {S S' : Finset ℕ} (h : Marks m S) (h' : Marks m' S')
    (hS : ∀ j ∈ S, j < 32) (hS' : ∀ j ∈ S', j < 32) : m = m' ↔ S = S' := by
  constructor
  · rintro rfl
    ext j
    by_cases hj : j < 32
    · rw [← h j hj, h' j hj]
    · exact ⟨fun hm => absurd (hS j hm) hj, fun hm => absurd (hS' j hm) hj⟩
  · rintro rfl
    apply BitVec.eq_of_getLsbD_eq
    intro j hj
    rw [Bool.eq_iff_iff, h j hj, h' j hj]

theorem Marks.testBit {m : BitVec 32} {S : Finset ℕ} (h : Marks m S) {i : ℕ} (hi : i < 32) :
    decide (m &&& BitVec.twoPow 32 i ≠ 0#32) = decide (i ∈ S) := by
  rw [decide_eq_decide, and_twoPow_ne_zero hi, h i hi]

/-- Slot `s` holds exactly the frames `S` of payload `p`. -/
structure Gathering (p : List UInt8) (S : Finset ℕ) (s : Slot) : Prop where
  frames : Marks s.frames S
  subset : S ⊆ Finset.range (frameCount p.length)
  declared : 0 ∈ S → s.allFrames = requiredFrames p.length ∧ s.size = p.length
  undeclared : 0 ∉ S → s.allFrames = 0#32
  bytes : ∀ k, k < p.length → frameOf k ∈ S → s.data[k]? = p[k]?
  length : s.data.length = FASTPACKET_MAX_SIZE

/-- A freshly claimed slot holds no frame of any payload. -/
theorem Gathering.claimed (p : List UInt8) (k : FastId) (age : UInt64) :
    Gathering p ∅ (.claimed k age) where
  frames := marks_zero
  subset := Finset.empty_subset _
  declared h := absurd h (Finset.notMem_empty 0)
  undeclared _ := rfl
  bytes _ _ h := absurd h (Finset.notMem_empty _)
  length := by simp [Slot.claimed]

/-- A frame 0 restarts a slot exactly when index 0 is already marked, or when all
of the other frames it needs are and there is one. -/
theorem restarts_zero {s : Slot} {F : Finset ℕ} (hm : Marks s.frames F) {len : ℕ}
    (hlen : len ≤ FASTPACKET_MAX_SIZE) :
    s.restarts 0 (some (len, requiredFrames len)) = true ↔
      0 ∈ F ∨ 2 ≤ frameCount len ∧ ∀ j, 1 ≤ j → j < frameCount len → j ∈ F := by
  have hn := frameCount_le hlen
  have hcover : (s.frames ||| 1#32) &&& requiredFrames len = requiredFrames len ↔
      ∀ j, 1 ≤ j → j < frameCount len → j ∈ F := by
    have hone : Marks (s.frames ||| 1#32) (insert 0 F) := hm.insert (i := 0) (by decide)
    rw [and_eq_right_iff]
    constructor
    · intro h j hj hjn
      have := h j (by rw [marks_required hlen j (by omega)]; exact Finset.mem_range.mpr hjn)
      rw [hone j (by omega), Finset.mem_insert] at this
      exact this.resolve_left (by omega)
    · intro h j hj
      have hj32 : j < 32 := BitVec.lt_of_getLsbD hj
      rw [marks_required hlen j hj32, Finset.mem_range] at hj
      rw [hone j hj32, Finset.mem_insert]
      by_cases h0 : j = 0
      · exact Or.inl h0
      · exact Or.inr (h j (by omega) hj)
  have hmask : requiredFrames len ≠ 1#32 ↔ 2 ≤ frameCount len := by
    have hone : Marks 1#32 {0} := by
      exact marks_zero.insert (i := 0) (by decide)
    rw [Ne, (marks_required hlen).eq_iff hone (fun j hj => by
      have := Finset.mem_range.mp hj
      omega) (by simp)]
    constructor
    · intro h
      by_contra hlt
      have hpos := frameCount_pos len
      refine h (Finset.ext fun j => ?_)
      rw [Finset.mem_range, Finset.mem_singleton]
      omega
    · intro h heq
      have : 1 ∈ ({0} : Finset ℕ) := heq ▸ Finset.mem_range.mpr h
      simp at this
  have hstale : s.frames ≠ 0#32 ↔ F.filter (· < 32) ≠ ∅ := by
    rw [Ne, Ne, eq_zero_iff, Finset.filter_eq_empty_iff, not_iff_not]
    constructor
    · intro h j hj hj32
      rw [← hm j hj32, h j] at hj
      cases hj
    · intro h j
      by_cases hj32 : j < 32
      · rw [Bool.eq_false_iff, Ne, hm j hj32]
        exact fun hj => h hj hj32
      · exact BitVec.getLsbD_of_ge _ _ (by omega)
  unfold Slot.restarts
  simp only [hm.testBit (i := 0) (by decide), Bool.or_eq_true, Bool.and_eq_true,
    decide_eq_true_iff, hstale, hmask, hcover, Bool.not_eq_true']
  constructor
  · rintro (h | ⟨⟨-, h2⟩, h3⟩)
    · exact Or.inl h
    · exact Or.inr ⟨h2, h3⟩
  · rintro (h | ⟨h2, h3⟩)
    · exact Or.inl h
    · by_cases h0 : 0 ∈ F
      · exact Or.inl h0
      · refine Or.inr ⟨⟨⟨by simpa using h0, ?_⟩, h2⟩, h3⟩
        exact Finset.ne_empty_of_mem (Finset.mem_filter.mpr ⟨h3 1 le_rfl (by omega), by decide⟩)

/-- A later frame restarts a slot exactly when its index is already marked. -/
theorem restarts_later {s : Slot} {F : Finset ℕ} (hm : Marks s.frames F) {i : ℕ} (hi : i < 32) :
    s.restarts i none = true ↔ i ∈ F := by
  simp [Slot.restarts, hm.testBit hi]

/-! ## Taking in one more frame -/

section Gather

variable {K : FastId} {p : List UInt8} {i : ℕ} {f : RawFrame} {s : Slot} {F : Finset ℕ}

/-- Whether frame `i` of `p` restarts a slot that has the frames `F` marked. -/
def Restarts (p : List UInt8) (i : ℕ) (F : Finset ℕ) : Prop :=
  i ∈ F ∨ i = 0 ∧ 2 ≤ frameCount p.length ∧ ∀ j, 1 ≤ j → j < frameCount p.length → j ∈ F

instance : Decidable (Restarts p i F) := by
  unfold Restarts
  have : Decidable (∀ j, 1 ≤ j → j < frameCount p.length → j ∈ F) :=
    decidable_of_iff (∀ j, j < frameCount p.length → 1 ≤ j → j ∈ F)
      ⟨fun h j h1 h2 => h j h2 h1, fun h j h1 h2 => h j h2 h1⟩
  infer_instance

theorem lt_32 (hp : p.length ≤ FASTPACKET_MAX_SIZE) (hi : i < frameCount p.length) : i < 32 :=
  lt_of_lt_of_le hi (frameCount_le hp)

theorem restarts_iff (hf : IsFragment K p i f) (hp : p.length ≤ FASTPACKET_MAX_SIZE)
    (hi : i < frameCount p.length) (hm : Marks s.frames F) :
    s.restarts i (if i = 0 then some (declared f.data) else none) = true ↔ Restarts p i F := by
  unfold Restarts
  by_cases h0 : i = 0
  · subst h0
    rw [if_pos rfl, hf.declared hp, restarts_zero hm hp]
    simp
  · rw [if_neg h0, restarts_later hm (lt_32 hp hi)]
    simp [h0]

/-- Which frames are marked once frame `i` has been taken in. -/
theorem gather_marks (hf : IsFragment K p i f) (hK : K.Valid)
    (hp : p.length ≤ FASTPACKET_MAX_SIZE) (hi : i < frameCount p.length)
    (hm : Marks s.frames F) :
    Marks (s.gather f).frames (insert i (if Restarts p i F then ∅ else F)) := by
  have hi32 := lt_32 hp hi
  unfold Slot.gather
  simp only [hf.index hK hi32]
  refine Marks.insert ?_ hi32
  by_cases hr : Restarts p i F
  · rw [if_pos hr, if_pos ((restarts_iff hf hp hi hm).mpr hr)]
    exact marks_zero
  · rw [if_neg hr, if_neg fun h => hr ((restarts_iff hf hp hi hm).mp h)]
    exact hm

theorem gather_zero (hf : IsFragment K p 0 f) (hK : K.Valid)
    (hp : p.length ≤ FASTPACKET_MAX_SIZE) :
    (s.gather f).allFrames = requiredFrames p.length ∧ (s.gather f).size = p.length := by
  unfold Slot.gather
  simp only [hf.index hK (by decide), if_true, hf.declared hp]
  exact ⟨rfl, rfl⟩

theorem gather_later (hf : IsFragment K p i f) (hK : K.Valid) (hi : i < 32) (h0 : i ≠ 0) :
    (s.gather f).allFrames = s.allFrames ∧ (s.gather f).size = s.size := by
  unfold Slot.gather
  simp only [hf.index hK hi, if_neg h0]
  exact ⟨rfl, rfl⟩

theorem gather_data (hf : IsFragment K p i f) (hK : K.Valid) (hi : i < 32) :
    (s.gather f).data = storeBucket s.data i f.data := by
  unfold Slot.gather
  simp only [hf.index hK hi]

/-- **One more frame.** Unless it restarts the slot, a frame of `p` that is still
missing extends what the slot has gathered by itself. -/
theorem Gathering.gather (h : Gathering p F s) (hf : IsFragment K p i f) (hK : K.Valid)
    (hp : p.length ≤ FASTPACKET_MAX_SIZE) (hi : i < frameCount p.length)
    (hr : ¬ Restarts p i F) : Gathering p (insert i F) (s.gather f) := by
  have hi32 := lt_32 hp hi
  refine ⟨?_, ?_, ?_, ?_, ?_, ?_⟩
  · have := gather_marks hf hK hp hi h.frames
    rwa [if_neg hr] at this
  · exact Finset.insert_subset (Finset.mem_range.mpr hi) h.subset
  · intro hmem
    by_cases h0 : i = 0
    · subst h0
      exact gather_zero hf hK hp
    · obtain ⟨hall, hsize⟩ := gather_later (s := s) hf hK hi32 h0
      rw [hall, hsize]
      exact h.declared ((Finset.mem_insert.mp hmem).resolve_left (Ne.symm h0))
  · intro hmem
    rw [Finset.mem_insert, not_or] at hmem
    rw [(gather_later hf hK hi32 (Ne.symm hmem.1)).1]
    exact h.undeclared hmem.2
  · intro k hk hmem
    rw [gather_data hf hK hi32]
    by_cases hki : frameOf k = i
    · exact storeBucket_own hf h.length hp hki hk
    · rw [storeBucket_other _ _ hki]
      exact h.bytes k hk ((Finset.mem_insert.mp hmem).resolve_left hki)
  · rw [Slot.gather_data_length]
    exact h.length

/-- A frame 0 that restarts the slot, or meets it empty, starts over. -/
theorem Gathering.restart (hf : IsFragment K p 0 f) (hK : K.Valid)
    (hp : p.length ≤ FASTPACKET_MAX_SIZE) (hm : Marks s.frames F)
    (hlen : s.data.length = FASTPACKET_MAX_SIZE) (hr : Restarts p 0 F ∨ F = ∅) :
    Gathering p {0} (s.gather f) := by
  have hn := frameCount_pos p.length
  obtain ⟨hall, hsize⟩ := gather_zero (s := s) hf hK hp
  refine ⟨?_, ?_, fun _ => ⟨hall, hsize⟩, fun h => absurd (Finset.mem_singleton_self 0) h, ?_, ?_⟩
  · have hmarks := gather_marks hf hK hp hn hm
    rcases hr with hr | rfl
    · rwa [if_pos hr] at hmarks
    · rwa [ite_self] at hmarks
  · exact Finset.singleton_subset_iff.mpr (Finset.mem_range.mpr hn)
  · intro k hk hmem
    rw [gather_data hf hK (by decide)]
    exact storeBucket_own hf hlen hp (Finset.mem_singleton.mp hmem) hk
  · rw [Slot.gather_data_length]
    exact hlen

/-! ## Completing -/

/-- The completion test of a slot whose mask of needed frames is that of `p`. -/
theorem complete_iff_of_marks (hp : p.length ≤ FASTPACKET_MAX_SIZE) (hm : Marks s.frames F)
    (hF : ∀ t ∈ F, t < 32) (hall : s.allFrames = requiredFrames p.length) :
    (s.allFrames ≠ 0#32 ∧ s.frames = s.allFrames) ↔ F = Finset.range (frameCount p.length) := by
  have hne : requiredFrames p.length ≠ 0#32 := by
    intro hnil
    have := (marks_required hp 0 (by decide)).mpr (Finset.mem_range.mpr (frameCount_pos p.length))
    rw [hnil] at this
    simp at this
  rw [hall, hm.eq_iff (marks_required hp) hF fun j hj => lt_32 hp (Finset.mem_range.mp hj)]
  exact ⟨fun h => h.2, fun h => ⟨hne, h⟩⟩

/-- The completion test of a slot that has gathered the frames `F` of `p`. -/
theorem Gathering.complete_iff (h : Gathering p F s) (hp : p.length ≤ FASTPACKET_MAX_SIZE) :
    (s.allFrames ≠ 0#32 ∧ s.frames = s.allFrames) ↔ F = Finset.range (frameCount p.length) := by
  by_cases h0 : 0 ∈ F
  · exact complete_iff_of_marks hp h.frames
      (fun t ht => lt_32 hp (Finset.mem_range.mp (h.subset ht))) (h.declared h0).1
  · constructor
    · rintro ⟨hne, -⟩
      exact absurd (h.undeclared h0) hne
    · rintro rfl
      exact absurd (Finset.mem_range.mpr (frameCount_pos p.length)) h0

/-- A slot that has gathered every frame of `p` holds `p`. -/
theorem Gathering.payload (h : Gathering p (Finset.range (frameCount p.length)) s) :
    s.data.take s.size = p := by
  rw [(h.declared (Finset.mem_range.mpr (frameCount_pos _))).2]
  apply List.ext_getElem?
  intro k
  by_cases hk : k < p.length
  · rw [List.getElem?_take_of_lt hk]
    exact h.bytes k hk (Finset.mem_range.mpr (frameOf_lt hk))
  · rw [List.getElem?_eq_none (by rw [List.length_take]; omega),
      List.getElem?_eq_none (by omega)]

/-- While frames are missing the slot is kept, and the push reports `Partial`. -/
theorem Gathering.accept_partial (h : Gathering p F (s.gather f))
    (hp : p.length ≤ FASTPACKET_MAX_SIZE) (hF : F ≠ Finset.range (frameCount p.length)) :
    s.accept f = (s.gather f, .Partial) := by
  rcases Slot.accept_cases s f with ⟨-, hc⟩ | ⟨h2, -⟩
  · exact absurd ((h.complete_iff hp).mp hc) hF
  · exact h2

/-- The last missing frame completes the slot with `p` and frees it. -/
theorem Gathering.accept_complete (h : Gathering p (Finset.range (frameCount p.length)) (s.gather f))
    (hp : p.length ≤ FASTPACKET_MAX_SIZE) :
    (s.accept f).2 = .Complete { f with data := p } ∧ (s.accept f).1.used = false := by
  have hc := (h.complete_iff hp).mpr rfl
  rcases Slot.accept_cases s f with ⟨h1, -⟩ | ⟨-, h2⟩
  · rw [h1, h.payload]
    exact ⟨rfl, rfl⟩
  · exact absurd hc.2 (h2 hc.1)

end Gather

end Canboat
