import Canboat.Decode.Widths

/-!
# Decoding comes to its end

Every iteration of a set starts within the payload and moves on, so there are no more of
them than bits; and the sums of offsets and widths stay within a `u32`.
-/

namespace Canboat

variable {F : Type} [Float64 F]

/-! ## Sets that move on -/

/-- The width is the one that the definition gives. -/
def FieldType.fixedWidth : FieldType → Bool
  | .stringLau | .variable | .dynamicFieldValue => false
  | _ => true

def FieldInfo.fixedWidth (f : FieldInfo F) : Bool := f.fieldType.all FieldType.fixedWidth

/-- A field of at least one bit in every iteration. -/
def FieldInfo.Advances (f : FieldInfo F) : Prop :=
  f.condition = none ∧
    (f.fieldType = some .stringLau ∨ f.fixedWidth = true ∧ ∃ bl ∈ f.bitLength, 1 ≤ bl.toNat)

/-- Where a field of the set ends, if the widths up to there are known. -/
def FieldInfo.runningSum (f : FieldInfo F) (sum : Option ℕ) : Option ℕ :=
  if f.condition.isSome then sum
  else if f.fixedWidth then do
    let start ← sum
    let bl ← f.bitLength
    pure ((f.bitOffset.map (·.toNat)).getD start + bl.toNat)
  else none

/-- The offsets are not behind the running sum of the widths. -/
def Flows : Option ℕ → List (FieldInfo F) → Prop
  | _, [] => True
  | sum, f :: set => (∀ o ∈ f.bitOffset, ∃ p ∈ sum, p ≤ o.toNat) ∧ Flows (f.runningSum sum) set

theorem addU32_ok {a b : UInt32} (h : a.toNat + b.toNat ≤ 4294967295) :
    addU32 a b = .ok (a + b) ∧ (a + b).toNat = a.toNat + b.toNat := by
  refine ⟨if_pos h, ?_⟩
  rw [UInt32.toNat_add]
  exact Nat.mod_eq_of_lt (by omega)

section Sets

variable {claim : List UInt8 → List (DecodedField F)} {f : FieldInfo F} {info : PgnInfo F}
  {data : List UInt8} {db : PgnDatabase F} {bitOffset : UInt32} {ctx : DecodeContext F}

/-- A field of a fixed width takes that width. -/
theorem decodeOneFieldAt_fixed (hfixed : f.fixedWidth = true) {bl : UInt32}
    (hbl : f.bitLength = some bl) :
    ∃ d ctx', decodeOneFieldAt claim f info data db bitOffset ctx = some (d, bl, ctx') := by
  unfold decodeOneFieldAt decodeSelfContained
  unfold FieldInfo.fixedWidth at hfixed
  rw [hbl]
  generalize f.fieldType = t at hfixed
  rcases t with - | t
  · exact ⟨_, _, rfl⟩
  · cases t with
    | stringLau | «variable» | dynamicFieldValue => exact absurd hfixed (by decide)
    | _ => exact ⟨_, _, rfl⟩

theorem decodeOneFieldAt_advances (h : f.Advances) :
    ∃ d bits ctx', decodeOneFieldAt claim f info data db bitOffset ctx = some (d, bits, ctx') ∧
      1 ≤ bits.toNat := by
  obtain ⟨-, hlau | ⟨hfixed, bl, hbl, hpos⟩⟩ := h
  · have hlong := (@decodeStringLau_bits F data bitOffset).1
    unfold decodeOneFieldAt decodeSelfContained
    rw [hlau]
    exact ⟨_, _, _, rfl, le_trans (by decide) hlong⟩
  · obtain ⟨d, ctx', hd⟩ := @decodeOneFieldAt_fixed F _ claim f info data db bitOffset ctx hfixed bl hbl
    exact ⟨d, bl, ctx', hd, hpos⟩

end Sets

section Walks

variable {s : CheckedSource F} {width : ℕ}

/-- A field that the walk may meet. -/
structure FieldInfo.Regular (f : FieldInfo F) (reach width : ℕ) : Prop where
  within : f.Within width
  carries : f.CarriesShort
  offset : ∀ o ∈ f.bitOffset, o.toNat ≤ reach

/-- **One iteration.** It does not fault and ends no earlier than it began; where a field advances
it ends later. -/
theorem decodeSet_ok (hs : s.Bounded width) {reach limit : ℕ} (hreach : reach ≤ limit)
    (setNumber : UInt8) (countWasZero : Bool) (iter : UInt32) {set : List (FieldInfo F)}
    (hset : ∀ f ∈ set, f.Regular reach width) (hroom : limit + set.length * (width + 7) ≤ 4294967295)
    {sum : Option ℕ} {w : Walk F}
    (hflow : iter = 0 → Flows sum set ∧ ∀ p ∈ sum, p = w.cursorBits.toNat)
    (hcursor : w.cursorBits.toNat ≤ limit) (htame : w.ctx.Tame width) (produced : Bool) :
    ∃ r, s.decodeSet setNumber countWasZero iter set produced w = .ok r ∧
      s.toSource.decodeSet setNumber countWasZero iter set produced w = r ∧
      r.2.ctx.Tame width ∧ w.cursorBits.toNat ≤ r.2.cursorBits.toNat ∧
      r.2.cursorBits.toNat ≤ limit + set.length * (width + 7) ∧ (produced = true → r.1 = true) ∧
      ((∃ f ∈ set, f.Advances) → r.1 = true ∧ w.cursorBits.toNat < r.2.cursorBits.toNat) := by
  induction set generalizing limit sum w produced with
  | nil =>
      refine ⟨(produced, w), rfl, rfl, htame, le_rfl, le_trans hcursor (Nat.le_add_right _ _), id, ?_⟩
      rintro ⟨f, hf, -⟩
      nomatch hf
  | cons sf set ih =>
      obtain ⟨hsf, hset'⟩ := List.forall_mem_cons.mp hset
      rw [List.length_cons, Nat.add_mul, Nat.one_mul] at hroom
      by_cases hcondition : sf.condition.isSome = true
      · -- skipped
        have hflow' : iter = 0 → Flows sum set ∧ ∀ p ∈ sum, p = w.cursorBits.toNat := by
          intro hiter
          obtain ⟨hflows, hsum⟩ := hflow hiter
          rw [Flows, FieldInfo.runningSum, if_pos hcondition] at hflows
          exact ⟨hflows.2, hsum⟩
        obtain ⟨r, hr, hr', htame', hle, hlimit, hproduced, hadvance⟩ :=
          ih hreach hset' (by omega) hflow' hcursor htame produced
        refine ⟨r, ?_, ?_, htame', hle, ?_, hproduced, ?_⟩
        · rw [CheckedSource.decodeSet, if_pos hcondition, hr]
        · rw [Source.decodeSet, if_pos hcondition, hr']
        · rw [List.length_cons, Nat.add_mul]
          omega
        · rintro ⟨f, hf, hadvances⟩
          rcases List.mem_cons.mp hf with rfl | hf
          · rw [hadvances.1] at hcondition
            nomatch hcondition
          · exact hadvance ⟨f, hf, hadvances⟩
      · obtain ⟨off, hoff⟩ : ∃ off, off =
            if iter = 0 then sf.bitOffset.getD w.cursorBits else w.cursorBits := ⟨_, rfl⟩
        have hlater : w.cursorBits.toNat ≤ off.toNat ∧ off.toNat ≤ limit := by
          rw [hoff]
          split_ifs with hiter
          · cases hoffset : sf.bitOffset with
            | none => exact ⟨le_rfl, hcursor⟩
            | some o =>
                obtain ⟨p, hp, hle⟩ := (hflow hiter).1.1 o hoffset
                rw [(hflow hiter).2 p hp] at hle
                exact ⟨hle, le_trans (hsf.offset o hoffset) hreach⟩
          · exact ⟨le_rfl, hcursor⟩
        obtain ⟨hchecks, hstep⟩ := field_step hs hsf.within hsf.carries htame off
        cases hd : decodeOneFieldAt s.claim sf s.info s.data s.db off w.ctx with
        | some found =>
            obtain ⟨d, bits, ctx'⟩ := found
            obtain ⟨hbits, htame'⟩ := hstep d bits ctx' hd
            obtain ⟨hadd, hsum'⟩ := @addU32_ok off bits (by omega)
            have hflow' : iter = 0 → Flows (sf.runningSum sum) set ∧
                ∀ p ∈ sf.runningSum sum, p = (off + bits).toNat := by
              intro hiter
              refine ⟨(hflow hiter).1.2, ?_⟩
              intro p hp
              rw [FieldInfo.runningSum, if_neg hcondition] at hp
              by_cases hfixed : sf.fixedWidth = true
              swap
              · rw [if_neg hfixed] at hp
                nomatch hp
              rw [if_pos hfixed] at hp
              obtain ⟨start, hstart, hp⟩ := Option.bind_eq_some_iff.mp hp
              obtain ⟨bl, hbl, hp⟩ := Option.bind_eq_some_iff.mp hp
              obtain ⟨d', ctx'', hd'⟩ := @decodeOneFieldAt_fixed F _ s.claim sf s.info s.data s.db off
                w.ctx hfixed bl hbl
              rw [hd] at hd'
              injection hd' with hd'
              injection hd' with _ hd'
              injection hd' with hd' _
              rw [← Option.some.inj hp, hsum', hd', hoff, if_pos hiter, (hflow hiter).2 start hstart]
              cases sf.bitOffset with
              | none => rfl
              | some o => rfl
            obtain ⟨r, hr, hr', htame'', hle, hlimit, hproduced, hadvance⟩ :=
              @ih (limit + (width + 7)) (by omega) hset' (by omega) (sf.runningSum sum)
                { cursorBits := off + bits
                  out := w.out ++ [{ d with
                    repeatSet := setNumber
                    repeatIndex := if countWasZero && produced then none else some iter }]
                  ctx := ctx' } hflow' (by dsimp only; omega) htame' true
            refine ⟨r, ?_, ?_, htame'', ?_, ?_, fun _ => hproduced rfl, ?_⟩
            · rw [CheckedSource.decodeSet, if_neg hcondition]
              dsimp only
              rw [← hoff, hchecks]
              dsimp only [bind, Except.bind]
              rw [hd]
              dsimp only
              rw [hadd]
              exact hr
            · rw [Source.decodeSet, if_neg hcondition]
              dsimp only
              rw [← hoff, hd]
              exact hr'
            · dsimp only at hle
              omega
            · rw [List.length_cons, Nat.add_mul]
              omega
            · rintro ⟨f, hf, hadvances⟩
              refine ⟨hproduced rfl, ?_⟩
              dsimp only at hle
              rcases List.mem_cons.mp hf with rfl | hf
              · obtain ⟨d', bits', ctx'', hd', hpos⟩ := @decodeOneFieldAt_advances F _ s.claim f s.info
                  s.data s.db off w.ctx hadvances
                rw [hd] at hd'
                injection hd' with hd'
                injection hd' with _ hd'
                injection hd' with hd' _
                rw [← hd'] at hpos
                omega
              · have := (hadvance ⟨f, hf, hadvances⟩).2
                dsimp only at this
                omega
        | none =>
            have hlost : sf.runningSum sum = none := by
              rw [FieldInfo.runningSum, if_neg hcondition]
              split_ifs with hfixed
              · cases hbl : sf.bitLength with
                | none =>
                    cases sum with
                    | none => rfl
                    | some _ => rfl
                | some bl =>
                    obtain ⟨d', ctx'', hd'⟩ := @decodeOneFieldAt_fixed F _ s.claim sf s.info s.data s.db
                      off w.ctx hfixed bl hbl
                    rw [hd] at hd'
                    nomatch hd'
              · rfl
            have hsolid : ¬sf.Advances := by
              intro hadvances
              obtain ⟨d', bits', ctx'', hd', -⟩ := @decodeOneFieldAt_advances F _ s.claim sf s.info
                s.data s.db off w.ctx hadvances
              rw [hd] at hd'
              nomatch hd'
            have hflow' : ∀ w' : Walk F, iter = 0 →
                Flows (sf.runningSum sum) set ∧ ∀ p ∈ sf.runningSum sum, p = w'.cursorBits.toNat := by
              intro w' hiter
              refine ⟨(hflow hiter).1.2, ?_⟩
              rw [hlost]
              nofun
            obtain ⟨w', hskip, hskip', hctx, hge, hle'⟩ : ∃ w' : Walk F,
                s.decodeSet setNumber countWasZero iter (sf :: set) produced w =
                  s.decodeSet setNumber countWasZero iter set produced w' ∧
                s.toSource.decodeSet setNumber countWasZero iter (sf :: set) produced w =
                  s.toSource.decodeSet setNumber countWasZero iter set produced w' ∧
                w'.ctx = w.ctx ∧ w.cursorBits.toNat ≤ w'.cursorBits.toNat ∧
                w'.cursorBits.toNat ≤ limit + (width + 7) := by
              rw [CheckedSource.decodeSet, Source.decodeSet, if_neg hcondition, if_neg hcondition]
              dsimp only
              rw [← hoff, hchecks]
              dsimp only [bind, Except.bind]
              rw [hd]
              cases hbl : sf.bitLength with
              | none => exact ⟨w, rfl, rfl, rfl, le_rfl, by omega⟩
              | some bl =>
                  have hwidth := hsf.within.width bl hbl
                  obtain ⟨hadd, hsum'⟩ := @addU32_ok off bl (by omega)
                  dsimp only
                  rw [hadd]
                  exact ⟨{ w with cursorBits := off + bl }, rfl, rfl, rfl, by dsimp only; omega,
                    by dsimp only; omega⟩
            obtain ⟨r, hr, hr', htame'', hle, hlimit, hproduced, hadvance⟩ :=
              @ih (limit + (width + 7)) (by omega) hset' (by omega) (sf.runningSum sum) w'
                (hflow' w') hle' (by rw [hctx]; exact htame) produced
            refine ⟨r, by rw [hskip, hr], by rw [hskip', hr'], htame'', by omega, ?_, hproduced, ?_⟩
            · rw [List.length_cons, Nat.add_mul]
              omega
            · rintro ⟨f, hf, hadvances⟩
              rcases List.mem_cons.mp hf with rfl | hf
              · exact absurd hadvances hsolid
              · obtain ⟨hproduced', hlt⟩ := hadvance ⟨f, hf, hadvances⟩
                exact ⟨hproduced', by omega⟩

/-- Iterations one after another, each beginning within the payload and moving on. -/
def Marches (payload : ℕ) : UInt32 → List (UInt32 × UInt32) → Prop
  | _, [] => True
  | start, it :: its =>
      it.1 = start ∧ start.toNat < payload ∧ start.toNat < it.2.toNat ∧ Marches payload it.2 its

theorem Marches.length_le {payload : ℕ} {start : UInt32} {its : List (UInt32 × UInt32)}
    (h : Marches payload start its) : its.length ≤ payload - start.toNat := by
  induction its generalizing start with
  | nil => exact Nat.zero_le _
  | cons it its ih =>
      obtain ⟨-, hlt, hmoves, hrest⟩ := h
      have := ih hrest
      rw [List.length_cons]
      omega

theorem Marches.forall {payload : ℕ} {start : UInt32} {its : List (UInt32 × UInt32)}
    (h : Marches payload start its) :
    ∀ it ∈ its, it.1.toNat < payload ∧ it.1.toNat < it.2.toNat := by
  induction its generalizing start with
  | nil => nofun
  | cons it its ih =>
      obtain ⟨hstart, hlt, hmoves, hrest⟩ := h
      rw [List.forall_mem_cons, hstart]
      exact ⟨⟨hlt, hmoves⟩, ih hrest⟩

omit [Float64 F] in
theorem payloadBits_toNat (hs : s.Bounded width) :
    s.toSource.payloadBits.toNat = s.data.length * 8 := by
  have hdata := hs.data
  rw [Source.payloadBits, UInt32.toNat_ofNat']
  omega

/-- **The iterations of a set.** -/
theorem decodeIterations_ok (hs : s.Bounded width) {reach : ℕ} (hreach : 14280 ≤ reach)
    (setNumber : UInt8) (countWasZero : Bool) {set : List (FieldInfo F)}
    (hset : ∀ f ∈ set, f.Regular reach width) (hadvances : ∃ f ∈ set, f.Advances)
    (hroom : reach + set.length * (width + 7) ≤ 4294967295) (n : ℕ) {iter : UInt32}
    (hiter : iter.toNat + n ≤ 4294967295) {sum : Option ℕ} {w : Walk F}
    (hflow : iter = 0 → Flows sum set ∧ ∀ p ∈ sum, p = w.cursorBits.toNat)
    (htame : w.ctx.Tame width) :
    ∃ w' its, s.decodeIterations setNumber countWasZero set n iter w = .ok (w', its) ∧
      s.toSource.decodeIterations setNumber countWasZero set n iter w = w' ∧
      w'.ctx.Tame width ∧ its.length ≤ n ∧ Marches (s.data.length * 8) w.cursorBits its ∧
      w'.cursorBits.toNat ≤ max w.cursorBits.toNat (reach + set.length * (width + 7)) := by
  induction n generalizing iter sum w with
  | zero => exact ⟨w, [], rfl, rfl, htame, le_rfl, trivial, le_max_left _ _⟩
  | succ n ih =>
      have hpayload := payloadBits_toNat hs
      have hdata := hs.data
      rw [CheckedSource.decodeIterations, Source.decodeIterations]
      by_cases hout : w.cursorBits ≥ s.toSource.payloadBits
      · rw [if_pos hout, if_pos hout]
        exact ⟨w, [], rfl, rfl, htame, Nat.zero_le _, trivial, le_max_left _ _⟩
      · have hin : w.cursorBits.toNat < s.data.length * 8 := by
          rw [← hpayload]
          exact Nat.lt_of_not_le hout
        obtain ⟨r, hr, hr', htame', -, hlimit, -, hadvance⟩ :=
          decodeSet_ok hs le_rfl setNumber countWasZero iter hset hroom hflow (by omega) htame false
        obtain ⟨hproduced, hmoves⟩ := hadvance hadvances
        have hnext : (iter + 1).toNat = iter.toNat + 1 := by
          rw [UInt32.toNat_add]
          exact Nat.mod_eq_of_lt (by show iter.toNat + 1 < 2 ^ 32; omega)
        have hlater : iter + 1 = 0 → Flows sum set ∧ ∀ p ∈ sum, p = r.2.cursorBits.toNat := by
          intro hzero
          rw [hzero] at hnext
          nomatch hnext
        obtain ⟨w', its, hrest, hrest', htame'', hlength, hmarches, hend⟩ :=
          @ih (iter + 1) (by omega) sum r.2 hlater htame'
        rw [if_neg hout, if_neg hout, hr, hr']
        refine ⟨w', (w.cursorBits, r.2.cursorBits) :: its, ?_, ?_, htame'', ?_, ?_, ?_⟩
        · show (if r.1 then _ else _) = _
          rw [if_pos hproduced, hrest]
          rfl
        · dsimp only
          rw [if_pos hproduced, hrest']
        · rw [List.length_cons]
          omega
        · exact ⟨rfl, hin, hmoves, hmarches⟩
        · omega

/-- No more iterations than bits, nor than counted, each within the payload and moving on. -/
structure SetRun.Bounded (run : SetRun) (payload : ℕ) : Prop where
  length : run.iterations.length ≤
    (run.count.map fun n => min (max n.toNat 1) payload).getD payload
  inside : ∀ it ∈ run.iterations, it.1.toNat < payload ∧ it.1.toNat < it.2.toNat

theorem decodeRepeating_ok (hs : s.Bounded width) {reach : ℕ} (hreach : 14280 ≤ reach)
    {f : FieldInfo F} {rest : List (FieldInfo F)} (hfields : ∀ g ∈ f :: rest, g.Regular reach width)
    {size : UInt32} (hsize : size.toNat ≤ (f :: rest).length)
    (hadvances : ∃ g ∈ (f :: rest).take size.toNat, g.Advances)
    (hflows : Flows (f.bitOffset.map (·.toNat)) ((f :: rest).take size.toNat))
    (hroom : reach + size.toNat * (width + 7) ≤ 4294967295) (countField : Option UInt32)
    (setNumber : UInt8) {w : Walk F} (htame : w.ctx.Tame width) :
    ∃ w' run, s.decodeRepeating (f :: rest) size countField setNumber w = .ok (w', run) ∧
      s.toSource.decodeRepeating ((f :: rest).take size.toNat) countField setNumber w = w' ∧
      w'.ctx.Tame width ∧ run.Bounded (s.data.length * 8) ∧
      w'.cursorBits.toNat ≤ max w.cursorBits.toNat (reach + size.toNat * (width + 7)) := by
  have hlength : ((f :: rest).take size.toNat).length = size.toNat := by
    rw [List.length_take, Nat.min_eq_left hsize]
  have hslice : slice (f :: rest) 0 size.toNat = .ok ((f :: rest).take size.toNat) :=
    slice_of_le (Nat.zero_le _) hsize
  obtain ⟨k, hk⟩ : ∃ k, size.toNat = k + 1 := by
    obtain ⟨g, hg, -⟩ := hadvances
    have := List.length_pos_of_mem hg
    exact ⟨size.toNat - 1, by omega⟩
  have htake : (f :: rest).take size.toNat = f :: rest.take k := by rw [hk, List.take_succ_cons]
  obtain ⟨start, hstart⟩ : ∃ start, start = f.bitOffset.getD w.cursorBits := ⟨_, rfl⟩
  have hbase : start.toNat ≤ max w.cursorBits.toNat reach := by
    rw [hstart]
    cases hoffset : f.bitOffset with
    | none => exact le_max_left _ _
    | some o => exact le_trans ((hfields f List.mem_cons_self).offset o hoffset) (le_max_right _ _)
  obtain ⟨w', its, hrun, hrun', htame', hle, hmarches, hend⟩ :=
    @decodeIterations_ok F _ s width hs reach hreach setNumber
      (Source.rawCount countField w.out = some 0) ((f :: rest).take size.toNat)
      (fun g hg => hfields g (List.mem_of_mem_take hg)) hadvances (by rw [hlength]; exact hroom)
      (((Source.rawCount countField w.out).map fun n => max n.toNat 1).getD 4294967295) 0
      (by
        cases hcount : Source.rawCount countField w.out with
        | none => exact le_rfl
        | some n =>
            have := n.toNat_lt
            show 0 + max n.toNat 1 ≤ 4294967295
            omega)
      (f.bitOffset.map (·.toNat)) { w with cursorBits := start }
      (by
        refine fun _ => ⟨hflows, ?_⟩
        intro p hp
        obtain ⟨o, ho, rfl⟩ := Option.map_eq_some_iff.mp hp
        dsimp only
        rw [hstart, ho]
        rfl)
      htame
  refine ⟨w', ⟨setNumber, Source.rawCount countField w.out, its⟩, ?_, ?_, htame', ⟨?_, hmarches.forall⟩,
    ?_⟩
  · rw [CheckedSource.decodeRepeating]
    dsimp only [bind, Except.bind]
    rw [hslice, htake]
    dsimp only
    rw [← hstart, ← htake, hrun]
    rfl
  · rw [Source.decodeRepeating.eq_def, htake]
    dsimp only
    rw [← hstart, ← htake]
    exact hrun'
  · have hbits := hmarches.length_le
    dsimp only at hbits ⊢
    cases hcount : Source.rawCount countField w.out with
    | none =>
        show its.length ≤ s.data.length * 8
        omega
    | some n =>
        rw [hcount] at hle
        have hle' : its.length ≤ max n.toNat 1 := hle
        show its.length ≤ min (max n.toNat 1) (s.data.length * 8)
        omega
  · rw [hlength] at hend
    dsimp only at hend
    omega

/-- A set of the definition, from its first field on, moves on. -/
structure SetMoves (set : RepeatingFieldSet) (fields : List (FieldInfo F)) : Prop where
  advances : ∀ f rest, f :: rest <:+ fields → ∀ size ∈ Source.startOf set f,
    ∃ g ∈ (f :: rest).take size.toNat, g.Advances
  flows : ∀ f rest, f :: rest <:+ fields → ∀ size ∈ Source.startOf set f,
    Flows (f.bitOffset.map (·.toNat)) ((f :: rest).take size.toNat)

/-- The set ends within the fields. -/
def SetWithin (set : RepeatingFieldSet) (fields : List (FieldInfo F)) : Prop :=
  ∀ f rest, f :: rest <:+ fields → ∀ size ∈ Source.startOf set f, size.toNat ≤ (f :: rest).length

/-- The step of a walk that decodes a set. -/
theorem walk_set_room {reach limit width cursor size remaining : ℕ}
    (hsize : size ≤ remaining + 1) (hpos : 0 < size)
    (hroom : reach + (remaining + 1) * (width + 7) ≤ limit)
    (hcursor : cursor + (remaining + 1) * (width + 7) ≤ limit) :
    reach + size * (width + 7) ≤ limit ∧
      max cursor (reach + size * (width + 7)) + (remaining - (size - 1)) * (width + 7) ≤ limit := by
  have hsplit : (remaining + 1) * (width + 7) =
      size * (width + 7) + (remaining - (size - 1)) * (width + 7) := by
    rw [← Nat.add_mul]
    congr 1
    omega
  omega

omit [Float64 F] in
theorem startOf_pos {set : RepeatingFieldSet} {f : FieldInfo F} {size : UInt32}
    (h : Source.startOf set f = some size) : 0 < size.toNat := by
  unfold Source.startOf at h
  split_ifs at h
  exact set.size_pos size h

/-- **The walk.** -/
theorem walk_ok (hs : s.Bounded width) {reach : ℕ} (hreach : 14280 ≤ reach)
    (hregular : ∀ f ∈ s.info.fields, f.Regular reach width)
    (hset1 : SetMoves s.info.repeatingFieldSet1 s.info.fields)
    (hset2 : SetMoves s.info.repeatingFieldSet2 s.info.fields)
    (hwithin1 : SetWithin s.info.repeatingFieldSet1 s.info.fields)
    (hwithin2 : SetWithin s.info.repeatingFieldSet2 s.info.fields) {fields : List (FieldInfo F)}
    (hsuffix : fields <:+ s.info.fields) (skip : ℕ) (entered : Bool × Bool) {w : Walk F}
    (hroom : reach + fields.length * (width + 7) ≤ 4294967295)
    (hcursor : w.cursorBits.toNat + (fields.length - skip) * (width + 7) ≤ 4294967295)
    (htame : w.ctx.Tame width) :
    ∃ r runs, s.walk skip fields entered w = .ok (r, runs) ∧
      s.toSource.walk skip fields entered w = r ∧
      ∀ run ∈ runs, run.Bounded (s.data.length * 8) := by
  induction fields generalizing skip entered w with
  | nil =>
      refine ⟨(w, entered), [], ?_, ?_, nofun⟩
      · rw [CheckedSource.walk]
      · rw [Source.walk]
  | cons f fields ih =>
      have htail : fields <:+ s.info.fields := (List.suffix_cons f fields).trans hsuffix
      have hfields : ∀ g ∈ f :: fields, g.Regular reach width :=
        fun g hg => hregular g (hsuffix.subset hg)
      have hroom' : reach + fields.length * (width + 7) ≤ 4294967295 := by
        rw [List.length_cons, Nat.add_mul] at hroom
        omega
      cases skip with
      | succ skip =>
          obtain ⟨r, runs, hr, hr', hruns⟩ := ih htail skip entered hroom'
            (by rw [List.length_cons, Nat.add_sub_add_right] at hcursor; exact hcursor) htame
          exact ⟨r, runs, by rw [CheckedSource.walk, hr], by rw [Source.walk, hr'], hruns⟩
      | zero =>
          rw [List.length_cons] at hroom
          rw [List.length_cons, Nat.sub_zero] at hcursor
          -- what comes after a set, whichever of the two it is
          have hafter : ∀ (set : RepeatingFieldSet) (n : UInt8) (entered' : Bool × Bool) (size : UInt32),
              SetMoves set s.info.fields → SetWithin set s.info.fields →
              Source.startOf set f = some size →
              ∃ w' run r runs, s.decodeRepeating (f :: fields) size set.countField n w = .ok (w', run) ∧
                s.toSource.decodeRepeating ((f :: fields).take size.toNat) set.countField n w = w' ∧
                s.walk (size.toNat - 1) fields entered' w' = .ok (r, runs) ∧
                s.toSource.walk (size.toNat - 1) fields entered' w' = r ∧
                ∀ run' ∈ run :: runs, run'.Bounded (s.data.length * 8) := by
            intro set n entered' size hmoves hends hstart
            have hwithin := hends f fields hsuffix size hstart
            obtain ⟨hsetRoom, hsetCursor⟩ :=
              walk_set_room (List.length_cons ▸ hwithin) (startOf_pos hstart) hroom hcursor
            obtain ⟨w', run, hrun, hrun', htame', hbounded, hend⟩ :=
              decodeRepeating_ok hs hreach hfields hwithin (hmoves.advances f fields hsuffix size hstart)
                (hmoves.flows f fields hsuffix size hstart) hsetRoom set.countField n htame
            obtain ⟨r, runs, hr, hr', hruns⟩ :=
              @ih htail (size.toNat - 1) entered' w' hroom' (by omega) htame'
            exact ⟨w', run, r, runs, hrun, hrun', hr, hr', List.forall_mem_cons.mpr ⟨hbounded, hruns⟩⟩
          rw [CheckedSource.walk, Source.walk]
          cases h1 : Source.startOf s.info.repeatingFieldSet1 f with
          | some size =>
              obtain ⟨w', run, r, runs, hrun, hrun', hr, hr', hruns⟩ :=
                hafter _ 1 (entered.1 || s.reached f w, entered.2) size hset1 hwithin1 h1
              refine ⟨r, run :: runs, ?_, ?_, hruns⟩
              · dsimp only [bind, Except.bind]
                rw [hrun]
                dsimp only
                rw [hr]
                rfl
              · dsimp only
                rw [hrun', hr']
          | none =>
              cases h2 : Source.startOf s.info.repeatingFieldSet2 f with
              | some size =>
                  obtain ⟨w', run, r, runs, hrun, hrun', hr, hr', hruns⟩ :=
                    hafter _ 2 (entered.1, entered.2 || s.reached f w) size hset2 hwithin2 h2
                  refine ⟨r, run :: runs, ?_, ?_, hruns⟩
                  · dsimp only [bind, Except.bind]
                    rw [hrun]
                    dsimp only
                    rw [hr]
                    rfl
                  · dsimp only
                    rw [hrun', hr']
              | none =>
                  dsimp only
                  by_cases hcondition : f.condition.isSome = true
                  · obtain ⟨r, runs, hr, hr', hruns⟩ := ih htail 0 entered hroom'
                      (by rw [Nat.sub_zero]; rw [Nat.add_mul] at hcursor; omega) htame
                    exact ⟨r, runs, by rw [if_pos hcondition, hr], by rw [if_pos hcondition, hr'], hruns⟩
                  · obtain ⟨off, hoff⟩ : ∃ off, off = f.bitOffset.getD w.cursorBits := ⟨_, rfl⟩
                    have hnear : off.toNat + (fields.length + 1) * (width + 7) ≤ 4294967295 := by
                      rw [hoff]
                      cases hoffset : f.bitOffset with
                      | none => exact hcursor
                      | some o =>
                          have hle := (hfields f List.mem_cons_self).offset o hoffset
                          show o.toNat + _ ≤ _
                          omega
                    rw [Nat.add_mul, Nat.one_mul] at hnear hcursor
                    have hregular' := hfields f List.mem_cons_self
                    obtain ⟨hchecks, hstep⟩ := field_step hs hregular'.within hregular'.carries htame off
                    rw [if_neg hcondition, if_neg hcondition, ← hoff, hchecks]
                    dsimp only [bind, Except.bind]
                    cases hd : decodeOneFieldAt s.claim f s.info s.data s.db off w.ctx with
                    | none => exact ih htail 0 entered hroom' (by rw [Nat.sub_zero]; omega) htame
                    | some found =>
                        obtain ⟨d, bits, ctx'⟩ := found
                        obtain ⟨hbits, htame'⟩ := hstep d bits ctx' hd
                        obtain ⟨hadd, hsum⟩ := @addU32_ok off bits (by omega)
                        dsimp only
                        rw [hadd]
                        exact @ih htail 0 entered ⟨off + bits, w.out ++ [d], ctx'⟩ hroom'
                          (by rw [Nat.sub_zero]; dsimp only; omega) htame'

end Walks

/-! ## Decoding a definition -/

/-- The sets move on, and lengths are carried by at most sixteen bits. -/
structure PgnInfo.MovesOn (p : PgnInfo F) : Prop where
  set1 : SetMoves p.repeatingFieldSet1 p.fields
  set2 : SetMoves p.repeatingFieldSet2 p.fields
  lengths : ∀ f ∈ p.fields, f.CarriesLength → ∀ bl ∈ f.bitLength, bl.toNat ≤ 16

/-- The sets end within the fields, a length is a number as it is, and the offsets and widths do
not add up to more than a `u32` holds. -/
structure PgnInfo.Roomy (p : PgnInfo F) (reach width : ℕ) : Prop where
  set1 : SetWithin p.repeatingFieldSet1 p.fields
  set2 : SetWithin p.repeatingFieldSet2 p.fields
  unscaled : ∀ f ∈ p.fields, f.CarriesLength → f.Unscaled
  within : ∀ f ∈ p.fields, f.Within width
  offset : ∀ f ∈ p.fields, ∀ o ∈ f.bitOffset, o.toNat ≤ reach
  room : reach + p.fields.length * (width + 7) ≤ 4294967295

theorem decode_ok {s : CheckedSource F} {width reach : ℕ} (hs : s.Bounded width)
    (hreach : 14280 ≤ reach) (hmoves : s.info.MovesOn) (hroomy : s.info.Roomy reach width) :
    ∃ runs, s.decode = .ok (s.toSource.decode, runs) ∧
      ∀ run ∈ runs, run.Bounded (s.data.length * 8) := by
  have hregular : ∀ f ∈ s.info.fields, f.Regular reach width := fun f hf =>
    ⟨hroomy.within f hf, fun hcarries => ⟨hmoves.lengths f hf hcarries, hroomy.unscaled f hf hcarries⟩,
      hroomy.offset f hf⟩
  obtain ⟨r, runs, hr, hr', hruns⟩ := @walk_ok F _ s width hs reach hreach hregular hmoves.set1
    hmoves.set2 hroomy.set1 hroomy.set2 _ (List.suffix_refl _) 0 (false, false) ⟨0, [], .empty⟩
    hroomy.room
    (by
      have hroom := hroomy.room
      rw [Nat.sub_zero]
      show 0 + _ ≤ _
      omega)
    (tame_empty width)
  refine ⟨runs, ?_, hruns⟩
  rw [CheckedSource.decode, hr, Source.decode, hr']
  rfl

def smallPgn (fields : List (FieldInfo Binary64)) (set : RepeatingFieldSet) : PgnInfo Binary64 where
  pgn := 130000
  id := ⟨"small", by decide⟩
  description := "Small"
  packetType := .fast
  fallback := none
  priority := none
  length := none
  fields := fields
  repeatingFieldSet1 := set
  repeatingFieldSet2 := .none
  idIsPinned := false

def smallDatabase : PgnDatabase Binary64 := ⟨.metric, [], [], [], [], [], List.forall_mem_nil _⟩

def countField : FieldInfo Binary64 :=
  FieldInfo.number (Float64.ofInt 0) 1 ⟨"count", by decide⟩ 8

def textField : FieldInfo Binary64 :=
  { FieldInfo.number (Float64.ofInt 0) 2 ⟨"text", by decide⟩ 8 with
    fieldType := some .stringLau, bitLength := none }

/-- Texts, as many as the field before says. -/
def textSet : RepeatingFieldSet := ⟨some 1, some 2, some 1, by rintro _ ⟨⟩; decide⟩

theorem forall_suffix_cons {α : Type} {P : α → List α → Prop} {a : α} {l : List α} :
    (∀ f rest, f :: rest <:+ a :: l → P f rest) ↔ P a l ∧ ∀ f rest, f :: rest <:+ l → P f rest := by
  constructor
  · intro h
    exact ⟨h a l (List.suffix_refl _), fun f rest hf => h f rest (hf.trans (List.suffix_cons a l))⟩
  · rintro ⟨hhead, htail⟩ f rest hf
    rcases List.suffix_cons_iff.mp hf with heq | hf
    · cases heq
      exact hhead
    · exact htail f rest hf

theorem forall_suffix_nil {α : Type} {P : α → List α → Prop} :
    ∀ f rest, f :: rest <:+ [] → P f rest := by
  intro f rest hf
  nomatch List.suffix_nil.mp hf

omit [Float64 F] in
theorem setMoves_none (fields : List (FieldInfo F)) : SetMoves .none fields where
  advances _ _ _ _ h := nomatch h
  flows _ _ _ _ h := nomatch h

omit [Float64 F] in
theorem setWithin_none (fields : List (FieldInfo F)) : SetWithin .none fields :=
  fun _ _ _ _ h => nomatch h

theorem movesOn_texts : (smallPgn [countField, textField] textSet).MovesOn where
  set1 := by
    constructor
    · refine forall_suffix_cons.mpr ⟨nofun, forall_suffix_cons.mpr ⟨?_, forall_suffix_nil⟩⟩
      rintro _ ⟨⟩
      exact ⟨textField, List.mem_singleton_self _, rfl, .inl rfl⟩
    · refine forall_suffix_cons.mpr ⟨nofun, forall_suffix_cons.mpr ⟨?_, forall_suffix_nil⟩⟩
      rintro _ ⟨⟩
      exact ⟨nofun, trivial⟩
  set2 := setMoves_none _
  lengths := by
    intro f hf
    rcases List.mem_pair.mp hf with rfl | rfl
    · rintro (h | h) <;> nomatch h
    · rintro (h | h) <;> nomatch h

theorem roomy_texts : (smallPgn [countField, textField] textSet).Roomy 14280 524280 where
  set1 := by
    refine forall_suffix_cons.mpr ⟨nofun, forall_suffix_cons.mpr ⟨?_, forall_suffix_nil⟩⟩
    rintro _ ⟨⟩
    decide
  set2 := setWithin_none _
  unscaled := by
    intro f hf
    rcases List.mem_pair.mp hf with rfl | rfl
    · rintro (h | h) <;> nomatch h
    · rintro (h | h) <;> nomatch h
  within := by
    intro f hf
    rcases List.mem_pair.mp hf with rfl | rfl
    · refine ⟨?_, fun _ => rfl⟩
      rintro _ ⟨⟩
      decide
    · exact ⟨nofun, fun _ => rfl⟩
  offset := by
    intro f hf
    rcases List.mem_pair.mp hf with rfl | rfl
    · nofun
    · nofun
  room := by decide

theorem entriesWithin_smallDatabase (width : ℕ) : smallDatabase.EntriesWithin width :=
  List.forall_mem_nil _

/-- A field that ends where the offsets do. -/
def farField : FieldInfo Binary64 :=
  { countField with bitOffset := some 4294967288 }

/-- A time that no `i64` holds with its offset. -/
def shiftedField : FieldInfo Binary64 :=
  { countField with fieldType := some .time, offset := some 9223372036854775807 }

/-- A length in millions of bytes. -/
def millionsField : FieldInfo Binary64 :=
  { FieldInfo.number (Float64.ofInt 0) 1 ⟨"length", by decide⟩ 16 with
    isDynamicLengthMarker := true, resolution := some (Float64.ofInt 1000000) }

def dynamicField : FieldInfo Binary64 :=
  { textField with fieldType := some .dynamicFieldValue }

/-- Two fields from the first on. -/
def pairSet : RepeatingFieldSet := ⟨some 2, some 1, none, by rintro _ ⟨⟩; decide⟩

def faultOf {α : Type} : Except Fault α → Option Fault
  | .ok _ => none
  | .error e => some e

theorem movesOn_of_no_sets {fields : List (FieldInfo Binary64)}
    (h : ∀ f ∈ fields, f.CarriesLength → ∀ bl ∈ f.bitLength, bl.toNat ≤ 16) :
    (smallPgn fields .none).MovesOn := ⟨setMoves_none _, setMoves_none _, h⟩

end Canboat
