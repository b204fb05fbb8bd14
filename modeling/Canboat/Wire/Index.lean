import Canboat.Decode.DeviceName
import Canboat.Decode.Shapes
import Canboat.Wire.Model

/-!
# The index by order

A field found through the index of its record, and the same field found by a scan, for records as
they are decoded and as they come from the wire.
-/

namespace Canboat

variable {F : Type} [Float64 F]

/-- A field outside the sets, by its order. -/
def DecodedPgn.scan (d : DecodedPgn F) (order : UInt8) : Option (DecodedField F) :=
  d.fields.find? fun e => e.repeatSet = 0 ∧ e.order = order

/-- The fields are numbered in their order, from one on. -/
def PgnInfo.Ordered (info : PgnInfo F) : Prop :=
  ∀ i f, info.fields[i]? = some f → f.order.toNat = i + 1

/-- Every field outside the sets is in the index, which has so many positions. -/
def DecodedPgn.Fits (d : DecodedPgn F) (bound : ℕ) : Prop :=
  ∀ p e, d.fields[p]? = some e → e.repeatSet = 0 → e.order.toNat ≤ indexSlots ∧ p < bound

/-! ## Both builders -/

/-- An index of the positions below the bound. -/
def indexFrom (bound : ℕ) : ℕ → List (DecodedField F) → List Int8 → List Int8
  | _, [], idx => idx
  | pos, e :: fields, idx =>
      if e.repeatSet = 0 ∧ e.order ≠ 0 ∧ e.order.toNat - 1 < indexSlots ∧ pos < bound then
        indexFrom bound (pos + 1) fields (idx.set (e.order.toNat - 1) (Int8.ofNat pos))
      else indexFrom bound (pos + 1) fields idx

omit [Float64 F]

theorem buildIndexFrom_eq (pos : ℕ) (fields : List (DecodedField F)) (idx : List Int8) :
    buildIndexFrom pos fields idx = indexFrom 127 pos fields idx := by
  induction fields generalizing pos idx with
  | nil => rfl
  | cons e fields ih => rw [buildIndexFrom, indexFrom, ih, ih]

theorem rehydrateIndexFrom_eq (pos : ℕ) (fields : List (DecodedField F)) (idx : List Int8) :
    rehydrateIndexFrom pos fields idx = indexFrom 128 pos fields idx := by
  induction fields generalizing pos idx with
  | nil => rfl
  | cons e fields ih =>
      have hbound : pos ≤ 127 ↔ pos < 128 := Nat.lt_succ_iff.symm
      rw [rehydrateIndexFrom, indexFrom, ih, ih]
      simp only [hbound]

/-- No two fields outside the sets have the same order. -/
def TopDistinct (fields : List (DecodedField F)) : Prop :=
  fields.Pairwise fun e e' => e.repeatSet = 0 → e'.repeatSet = 0 → e.order ≠ e'.order

theorem TopDistinct.position_eq {fields : List (DecodedField F)} (h : TopDistinct fields)
    {p q : ℕ} {e e' : DecodedField F} (he : fields[p]? = some e) (he' : fields[q]? = some e')
    (htop : e.repeatSet = 0) (htop' : e'.repeatSet = 0) (horder : e.order = e'.order) : p = q := by
  obtain ⟨hp, rfl⟩ := List.getElem?_eq_some_iff.mp he
  obtain ⟨hq, rfl⟩ := List.getElem?_eq_some_iff.mp he'
  have hpairs := List.pairwise_iff_getElem.mp h
  by_contra hne
  rcases Nat.lt_or_gt_of_ne hne with hlt | hlt
  · exact hpairs p q hp hq hlt htop htop' horder
  · exact hpairs q p hq hp hlt htop' htop horder.symm

theorem indexFrom_length (bound pos : ℕ) (fields : List (DecodedField F)) (idx : List Int8) :
    (indexFrom bound pos fields idx).length = idx.length := by
  induction fields generalizing pos idx with
  | nil => rfl
  | cons e fields ih =>
      rw [indexFrom]
      split_ifs
      · rw [ih, List.length_set]
      · exact ih _ _

variable {bound : ℕ} {n : UInt8}

/-- A slot keeps what it has where no field of its order comes within the bound. -/
theorem indexFrom_of_none (hn : n ≠ 0) (pos : ℕ) {fields : List (DecodedField F)} (idx : List Int8)
    (h : ∀ i e, fields[i]? = some e → e.repeatSet = 0 → e.order = n → bound ≤ pos + i) :
    (indexFrom bound pos fields idx)[n.toNat - 1]? = idx[n.toNat - 1]? := by
  induction fields generalizing pos idx with
  | nil => rfl
  | cons e fields ih =>
      have hrest : ∀ i e', fields[i]? = some e' → e'.repeatSet = 0 → e'.order = n →
          bound ≤ pos + 1 + i := by
        intro i e' he' htop horder
        have hle := h (i + 1) e' (by rw [List.getElem?_cons_succ, he']) htop horder
        omega
      rw [indexFrom]
      split_ifs with hin
      · obtain ⟨htop, hzero, hslot, hpos⟩ := hin
        rw [ih (pos + 1) _ hrest]
        apply List.getElem?_set_ne
        intro hsame
        have hne : e.order.toNat ≠ 0 := fun h0 => hzero (UInt8.toNat_inj.mp h0)
        have hne' : n.toNat ≠ 0 := fun h0 => hn (UInt8.toNat_inj.mp h0)
        have horder : e.order = n := UInt8.toNat_inj.mp (by omega)
        have hle := h 0 e List.getElem?_cons_zero htop horder
        omega
      · exact ih (pos + 1) idx hrest

/-- The slot of a field within the bound has its position. -/
theorem indexFrom_of_some (hn : n ≠ 0) (hslots : n.toNat ≤ indexSlots) (pos : ℕ)
    {fields : List (DecodedField F)} {idx : List Int8} (hidx : idx.length = indexSlots)
    (hdistinct : TopDistinct fields) {i : ℕ} {e : DecodedField F} (he : fields[i]? = some e)
    (htop : e.repeatSet = 0) (horder : e.order = n) (hbound : pos + i < bound) :
    (indexFrom bound pos fields idx)[n.toNat - 1]? = some (Int8.ofNat (pos + i)) := by
  have hpos : n.toNat ≠ 0 := fun h0 => hn (UInt8.toNat_inj.mp h0)
  induction fields generalizing pos idx i with
  | nil => cases he
  | cons e' fields ih =>
      obtain ⟨hfirst, hrest⟩ := List.pairwise_cons.mp hdistinct
      rw [indexFrom]
      cases i with
      | zero =>
          cases he
          have hslot : e.order.toNat - 1 < indexSlots := by
            rw [horder]
            omega
          have hzero : e.order ≠ 0 := by
            rw [horder]
            exact hn
          rw [if_pos ⟨htop, hzero, hslot, hbound⟩, indexFrom_of_none hn, horder]
          · apply List.getElem?_set_self
            rw [hidx]
            omega
          · -- the fields after it have other orders
            intro j e'' he'' htop' horder'
            exact absurd (horder.trans horder'.symm)
              (hfirst e'' (List.mem_of_getElem? he'') htop htop')
      | succ i =>
          have hnext : pos + 1 + i = pos + (i + 1) := by omega
          rw [List.getElem?_cons_succ] at he
          split_ifs
          · rw [ih (pos + 1) (by rw [List.length_set, hidx]) hrest he (by omega), hnext]
          · rw [ih (pos + 1) hidx hrest he (by omega), hnext]

/-! ## The field and the scan -/

variable {d : DecodedPgn F}

theorem scan_eq_some {d : DecodedPgn F} (hdistinct : TopDistinct d.fields) {p : ℕ}
    {e : DecodedField F} (he : d.fields[p]? = some e) (htop : e.repeatSet = 0) :
    d.scan e.order = some e := by
  rw [DecodedPgn.scan]
  generalize d.fields = fields at hdistinct he
  induction fields generalizing p with
  | nil => cases he
  | cons e' fields ih =>
      obtain ⟨hfirst, hrest⟩ := List.pairwise_cons.mp hdistinct
      cases p with
      | zero =>
          cases he
          exact List.find?_cons_of_pos (decide_eq_true ⟨htop, rfl⟩)
      | succ p =>
          rw [List.getElem?_cons_succ] at he
          rw [List.find?_cons_of_neg, ih hrest he]
          intro hsame
          obtain ⟨htop', horder⟩ := of_decide_eq_true hsame
          exact hfirst e (List.mem_of_getElem? he) htop' htop horder

theorem scan_eq_none (h : ∀ (p : ℕ) (e : DecodedField F), d.fields[p]? = some e → e.repeatSet = 0 → e.order ≠ n) :
    d.scan n = none := by
  rw [DecodedPgn.scan, List.find?_eq_none]
  intro e he hsame
  obtain ⟨p, hp⟩ := List.mem_iff_getElem?.mp he
  obtain ⟨htop, horder⟩ := of_decide_eq_true hsame
  exact h p e hp htop horder

theorem field_eq (hn : n ≠ 0) : d.field n =
    (d.indexByOrder[n.toNat - 1]?).bind fun idx =>
      if idx < 0 then none else d.fields[idx.toInt.toNat]? := if_neg hn

/-- A slot in which no position was put, or a slot that there is not, gives no field. -/
theorem field_eq_none (hindex : d.indexByOrder = indexFrom bound 0 d.fields
      (List.replicate indexSlots noPosition)) (hn : n ≠ 0)
    (h : ∀ p e, d.fields[p]? = some e → e.repeatSet = 0 → e.order = n →
      indexSlots < n.toNat ∨ bound ≤ p) : d.field n = none := by
  rw [field_eq hn, hindex]
  by_cases hslots : n.toNat ≤ indexSlots
  · rw [indexFrom_of_none hn, List.getElem?_replicate]
    · have hpos : n.toNat ≠ 0 := fun h0 => hn (UInt8.toNat_inj.mp h0)
      rw [if_pos (by omega)]
      rfl
    · intro i e he htop horder
      rw [Nat.zero_add]
      exact (h i e he htop horder).resolve_left (by omega)
  · rw [List.getElem?_eq_none]
    · rfl
    · rw [indexFrom_length, List.length_replicate]
      omega

theorem field_eq_some (hindex : d.indexByOrder = indexFrom bound 0 d.fields
      (List.replicate indexSlots noPosition)) (hle : bound ≤ 128) (hn : n ≠ 0)
    (hdistinct : TopDistinct d.fields) {p : ℕ} {e : DecodedField F} (he : d.fields[p]? = some e)
    (htop : e.repeatSet = 0) (horder : e.order = n) (hslots : n.toNat ≤ indexSlots)
    (hbound : p < bound) : d.field n = some e := by
  have hposition : ∀ q < 128, ¬Int8.ofNat q < 0 ∧ (Int8.ofNat q).toInt.toNat = q := by decide
  obtain ⟨hnonneg, hsame⟩ := hposition p (by omega)
  rw [field_eq hn, hindex, indexFrom_of_some hn hslots 0 List.length_replicate hdistinct he htop
    horder (by rwa [Nat.zero_add]), Nat.zero_add, Option.bind_some, if_neg hnonneg, hsame, he]

/-- The field and the scan agree for a definition exactly when the index holds the fields. -/
theorem field_eq_scan_iff_fits {info : PgnInfo F} (hordered : info.Ordered)
    (hfields : ∀ e ∈ d.fields, e.info ∈ info.fields)
    (hindex : d.indexByOrder = indexFrom bound 0 d.fields
      (List.replicate indexSlots noPosition)) (hle : bound ≤ 128)
    (hdistinct : TopDistinct d.fields) :
    (∀ f ∈ info.fields, d.field f.order = d.scan f.order) ↔ d.Fits bound := by
  have hnonzero : ∀ f ∈ info.fields, f.order ≠ 0 := by
    intro f hf hzero
    obtain ⟨i, hi⟩ := List.mem_iff_getElem?.mp hf
    have hnumber := hordered i f hi
    rw [hzero] at hnumber
    cases hnumber
  constructor
  · intro hagree p e he htop
    have hf := hfields e (List.mem_of_getElem? he)
    have hne : e.order ≠ 0 := hnonzero e.info hf
    have hsame : d.field e.order = d.scan e.order := hagree e.info hf
    by_contra hout
    have hnone : d.field e.order = none := by
      apply field_eq_none hindex hne
      intro q e' he' htop' horder
      -- it is the same field, as its order is
      have hpq : q = p := hdistinct.position_eq he' he htop' htop horder
      rw [not_and_or] at hout
      omega
    rw [hnone, scan_eq_some hdistinct he htop] at hsame
    cases hsame
  · intro hfits f hf
    by_cases hsome : ∃ (p : ℕ) (e : DecodedField F), d.fields[p]? = some e ∧ e.repeatSet = 0 ∧ e.order = f.order
    · obtain ⟨p, e, he, htop, horder⟩ := hsome
      obtain ⟨hslots, hbound⟩ := hfits p e he htop
      rw [← horder, scan_eq_some hdistinct he htop]
      exact field_eq_some hindex hle (hnonzero e.info (hfields e (List.mem_of_getElem? he)))
        hdistinct he htop rfl hslots hbound
    · have hnot : ∀ (p : ℕ) (e : DecodedField F), d.fields[p]? = some e → e.repeatSet = 0 → e.order ≠ f.order :=
        fun p e he htop horder => hsome ⟨p, e, he, htop, horder⟩
      rw [scan_eq_none hnot, field_eq_none hindex (hnonzero f hf)]
      intro p e he htop horder
      exact absurd horder (hnot p e he htop)

/-! ## Decoded records -/

namespace Source

variable {s : Source F}

/-- The definitions of the fields outside the sets. -/
def topInfos (out : List (DecodedField F)) : List (FieldInfo F) :=
  (out.filter (·.repeatSet = 0)).map (·.info)

theorem topInfos_append (out out' : List (DecodedField F)) :
    topInfos (out ++ out') = topInfos out ++ topInfos out' := by
  rw [topInfos, List.filter_append, List.map_append, topInfos, topInfos]

theorem topInfos_of_top {d : DecodedField F} (h : d.repeatSet = 0) : topInfos [d] = [d.info] := by
  rw [topInfos, List.filter_singleton, decide_eq_true h]
  rfl

theorem topInfos_of_set {d : DecodedField F} (h : d.repeatSet ≠ 0) : topInfos [d] = [] := by
  rw [topInfos, List.filter_singleton, decide_eq_false h]
  rfl

variable [Float64 F]

theorem decodeSelfContained_single {claim : List UInt8 → List (DecodedField F)} {f : FieldInfo F}
    {info : PgnInfo F} {data : List UInt8} {db : PgnDatabase F} {off bits : UInt32}
    {ctx ctx' : DecodeContext F} {d : DecodedField F}
    (h : decodeSelfContained claim f info data db off ctx = some (d, bits, ctx')) :
    d.info = f ∧ d.repeatSet = 0 := by
  refine ⟨(decodeSelfContained_own h).1, ?_⟩
  unfold decodeSelfContained at h
  dsimp only at h
  split at h
  · cases h
    rfl
  · cases h
    rfl
  · cases h
    rfl
  · cases h
    rfl
  · cases h
  · cases h
    rfl

theorem decodeOneFieldAt_single {claim : List UInt8 → List (DecodedField F)} {f : FieldInfo F}
    {info : PgnInfo F} {data : List UInt8} {db : PgnDatabase F} {off bits : UInt32}
    {ctx ctx' : DecodeContext F} {d : DecodedField F}
    (h : decodeOneFieldAt claim f info data db off ctx = some (d, bits, ctx')) :
    d.info = f ∧ d.repeatSet = 0 := by
  rw [decodeOneFieldAt] at h
  split_ifs at h
  · rw [decodeVariable] at h
    obtain ⟨p, -, h⟩ := Option.bind_eq_some_iff.mp h
    obtain ⟨i, -, h⟩ := Option.bind_eq_some_iff.mp h
    obtain ⟨target, -, h⟩ := Option.bind_eq_some_iff.mp h
    obtain ⟨field, -, h⟩ := Option.bind_eq_some_iff.mp h
    split_ifs at h
    obtain ⟨sub, -, h⟩ := Option.bind_eq_some_iff.mp h
    cases h
    exact ⟨rfl, rfl⟩
  · exact decodeSelfContained_single h

theorem decodeSet_topInfos {setNumber : UInt8} (hset : setNumber ≠ 0) (countWasZero : Bool)
    (iter : UInt32) (set : List (FieldInfo F)) (produced : Bool) (w : Walk F) :
    topInfos (s.decodeSet setNumber countWasZero iter set produced w).2.out = topInfos w.out := by
  induction set generalizing produced w with
  | nil => rfl
  | cons f set ih =>
      rw [decodeSet]
      by_cases hcondition : f.condition.isSome = true
      · rw [if_pos hcondition]
        exact ih _ _
      · rw [if_neg hcondition]
        dsimp only
        split
        · rw [ih, topInfos_append, topInfos_of_set hset, List.append_nil]
        · split
          · exact ih _ _
          · exact ih _ _

theorem decodeIterations_topInfos {setNumber : UInt8} (hset : setNumber ≠ 0) (countWasZero : Bool)
    (set : List (FieldInfo F)) (n : ℕ) (iter : UInt32) (w : Walk F) :
    topInfos (s.decodeIterations setNumber countWasZero set n iter w).out = topInfos w.out := by
  induction n generalizing iter w with
  | zero => rfl
  | succ n ih =>
      have hstep := decodeSet_topInfos (s := s) hset countWasZero iter set false w
      rw [decodeIterations]
      split_ifs
      · rfl
      · dsimp only
        split_ifs
        · rw [ih, hstep]
        · exact hstep

theorem decodeRepeating_topInfos {setNumber : UInt8} (hset : setNumber ≠ 0)
    (set : List (FieldInfo F)) (countField : Option UInt32) (w : Walk F) :
    topInfos (s.decodeRepeating set countField setNumber w).out = topInfos w.out := by
  unfold decodeRepeating
  cases set with
  | nil => rfl
  | cons first rest => exact decodeIterations_topInfos hset _ _ _ _ _

/-- The fields outside the sets come in the order of their definitions, each once. -/
theorem walk_topInfos (skip : ℕ) (fields : List (FieldInfo F)) (entered : Bool × Bool)
    (w : Walk F) :
    (topInfos (s.walk skip fields entered w).1.out).Sublist (topInfos w.out ++ fields) := by
  induction fields generalizing skip entered w with
  | nil =>
      rw [walk, List.append_nil]
  | cons f fields ih =>
      have hlater : (topInfos w.out ++ fields).Sublist (topInfos w.out ++ f :: fields) :=
        (List.sublist_cons_self f fields).append_left _
      cases skip with
      | succ skip =>
          rw [walk]
          exact (ih skip entered w).trans hlater
      | zero =>
          rw [walk]
          split
          · refine (ih _ _ _).trans ?_
            rw [decodeRepeating_topInfos (by decide)]
            exact hlater
          · refine (ih _ _ _).trans ?_
            rw [decodeRepeating_topInfos (by decide)]
            exact hlater
          · split_ifs
            · exact (ih _ _ _).trans hlater
            · dsimp only
              split
              · next d bits ctx hd =>
                obtain ⟨hinfo, htop⟩ := decodeOneFieldAt_single hd
                refine (ih _ _ _).trans ?_
                rw [topInfos_append, topInfos_of_top htop, hinfo, List.append_assoc]
                exact List.Sublist.refl _
              · exact (ih _ _ _).trans hlater

end Source

theorem PgnInfo.Ordered.distinct {info : PgnInfo F} (h : info.Ordered) :
    info.fields.Pairwise fun f f' => f.order ≠ f'.order := by
  rw [List.pairwise_iff_getElem]
  intro i j hi hj hlt hsame
  have hfirst := h i _ (List.getElem?_eq_getElem hi)
  have hsecond := h j _ (List.getElem?_eq_getElem hj)
  rw [hsame] at hfirst
  omega

theorem topDistinct_of_topInfos {fields : List (DecodedField F)} {info : PgnInfo F}
    (hordered : info.Ordered) (h : (Source.topInfos fields).Sublist info.fields) :
    TopDistinct fields := by
  have hdistinct := hordered.distinct.sublist h
  rw [Source.topInfos, List.pairwise_map, List.pairwise_filter] at hdistinct
  refine hdistinct.imp ?_
  intro e e' hne htop htop'
  exact hne (decide_eq_true htop) (decide_eq_true htop')

section Records

variable [Float64 F]

/-- What a decoded record has of its definition. -/
theorem decode_indexed {db : PgnDatabase F} {frame : RawFrame} {info : PgnInfo F}
    {d : DecodedPgn F} (hpick : db.pickVariant frame = some info) (hordered : info.Ordered)
    (hdecode : db.decode frame = .ok d) :
    (∀ e ∈ d.fields, e.info ∈ info.fields) ∧ TopDistinct d.fields ∧
      d.indexByOrder = indexFrom 127 0 d.fields (List.replicate indexSlots noPosition) ∧
      d.id = info.id := by
  have hfields := fun e he => (decode_fields hpick hdecode e he).1
  rw [PgnDatabase.decode, hpick] at hdecode
  cases hdecode
  refine ⟨hfields, topDistinct_of_topInfos hordered ?_, buildIndexFrom_eq 0 _ _, rfl⟩
  exact Source.walk_topInfos 0 info.fields (false, false) ⟨0, [], .empty⟩

/-! ## Records from the wire -/

omit [Float64 F] in
theorem fieldByOrder_eq {info : PgnInfo F} (hordered : info.Ordered) {order : UInt8}
    (hpos : order ≠ 0) (hle : order.toNat ≤ info.fields.length) :
    ∃ f ∈ info.fields, fieldByOrder info order = .ok f ∧ f.order = order := by
  have hne : order.toNat ≠ 0 := fun h => hpos (UInt8.toNat_inj.mp h)
  have hone : (1 : UInt8) ≤ order := UInt8.le_iff_toNat_le.mpr (Nat.one_le_iff_ne_zero.mpr hne)
  have hslot : (order - 1).toNat = order.toNat - 1 := UInt8.toNat_sub_of_le _ _ hone
  have hlt : order.toNat - 1 < info.fields.length := by omega
  have hget := List.getElem?_eq_getElem hlt
  refine ⟨info.fields[order.toNat - 1], List.getElem_mem hlt, ?_, ?_⟩
  · rw [fieldByOrder]
    split
    next hnil =>
      rw [hnil] at hlt
      cases hlt
    next => rw [hslot, hget, Option.getD_some]
  · apply UInt8.toNat_inj.mp
    rw [hordered _ _ hget]
    omega

theorem rehydrate_kept {info : PgnInfo F} (hordered : info.Ordered) {peer : Option (PgnInfo F)}
    {db : PgnDatabase F} {fields fields' : List (DecodedField F)}
    (hrange : ∀ e ∈ fields, e.order ≠ 0 ∧ e.order.toNat ≤ info.fields.length)
    (h : rehydrateFields info peer db (WireField.ofFields fields) = .ok fields') :
    (∀ e ∈ fields', e.info ∈ info.fields) ∧
      fields'.map (fun e => (e.repeatSet, e.order)) = fields.map fun e => (e.repeatSet, e.order) := by
  induction fields generalizing fields' with
  | nil =>
      rw [WireField.ofFields, rehydrateFields] at h
      cases h
      exact ⟨nofun, rfl⟩
  | cons e fields ih =>
      obtain ⟨he, hrest⟩ := List.forall_mem_cons.mp hrange
      rw [WireField.ofFields, rehydrateFields] at h
      obtain ⟨e', hfield, h⟩ := Fault.bind_ok_iff.mp h
      obtain ⟨tail, htail, h⟩ := Fault.bind_ok_iff.mp h
      cases h
      obtain ⟨hinfos, hkeys⟩ := ih hrest htail
      obtain ⟨f, hf, hby, horder⟩ := fieldByOrder_eq hordered he.1 he.2
      obtain ⟨info', value, off, bits, repeatIndex, repeatSet, overrides⟩ := e
      rw [WireField.ofField, WireField.rehydrate] at hfield
      obtain ⟨f', hf', hfield⟩ := Fault.bind_ok_iff.mp hfield
      obtain ⟨v, -, hfield⟩ := Fault.bind_ok_iff.mp hfield
      cases hfield
      cases hby.symm.trans hf'
      refine ⟨List.forall_mem_cons.mpr ⟨hf, hinfos⟩, ?_⟩
      rw [List.map_cons, List.map_cons, hkeys]
      exact congrArg (fun n => (repeatSet, n) :: _) horder

omit [Float64 F] in
theorem topDistinct_of_keys {fields fields' : List (DecodedField F)}
    (h : fields'.map (fun e => (e.repeatSet, e.order)) = fields.map fun e => (e.repeatSet, e.order))
    (hdistinct : TopDistinct fields) : TopDistinct fields' := by
  have hmap : ∀ l : List (DecodedField F), TopDistinct l ↔
      (l.map fun e => (e.repeatSet, e.order)).Pairwise fun k k' => k.1 = 0 → k'.1 = 0 → k.2 ≠ k'.2 :=
    fun l => by
      rw [List.pairwise_map]
      rfl
  rw [hmap, h, ← hmap]
  exact hdistinct

/-- **The index and the scan.** A decoded record, and the record that a receiver of the same
definitions makes of it, find their fields through the index as a scan does exactly when none
outside the sets stands too far back or has too high an order. -/
theorem field_eq_scan_iff (producer : PgnDatabase F) (frame : RawFrame) (d : DecodedPgn F)
    (info : PgnInfo F) (hpick : producer.pickVariant frame = some info)
    (hdecode : producer.decode frame = .ok d) (hordered : info.Ordered) :
    ((∀ f ∈ info.fields, d.field f.order = d.scan f.order) ↔ d.Fits 127) ∧
    ∀ (embedded : Units → PgnDatabase F) (db : PgnDatabase F) (peerUnits : Units)
      (info' : PgnInfo F) (d' : DecodedPgn F),
      PgnIndex.get db (pgnIdHash d.id) = some info' → info'.Ordered →
      info'.fields.length = info.fields.length →
      (WirePgn.ofPgn d).rehydrate embedded db peerUnits = .ok (some d') →
      ((∀ f ∈ info'.fields, d'.field f.order = d'.scan f.order) ↔ d'.Fits 128) := by
  obtain ⟨hfields, hdistinct, hindex, -⟩ := decode_indexed hpick hordered hdecode
  refine ⟨field_eq_scan_iff_fits hordered hfields hindex (by decide) hdistinct, ?_⟩
  intro embedded db peerUnits info' d' hget hordered' hlength hrehydrate
  rw [WirePgn.rehydrate, show (WirePgn.ofPgn d).pgnIdHash = pgnIdHash d.id from rfl,
    hget] at hrehydrate
  obtain ⟨fields, hwire, hrehydrate⟩ := Fault.bind_ok_iff.mp hrehydrate
  cases hrehydrate
  have hrange : ∀ e ∈ d.fields, e.order ≠ 0 ∧ e.order.toNat ≤ info'.fields.length := by
    intro e he
    obtain ⟨i, hi⟩ := List.mem_iff_getElem?.mp (hfields e he)
    have hnumber : e.order.toNat = i + 1 := hordered i e.info hi
    obtain ⟨hlt, -⟩ := List.getElem?_eq_some_iff.mp hi
    refine ⟨?_, by omega⟩
    intro hzero
    rw [hzero] at hnumber
    cases hnumber
  obtain ⟨hinfos, hkeys⟩ := rehydrate_kept hordered' hrange hwire
  exact field_eq_scan_iff_fits hordered' hinfos (rehydrateIndexFrom_eq 0 _ _) le_rfl
    (topDistinct_of_keys hkeys hdistinct)

end Records

/-! ## A library with many titles -/

def libraryNumber (order : UInt8) (id : Identifier) (bitOffset bitLength : UInt32)
    (fieldType : FieldType) : FieldInfo Binary64 :=
  { claimNumber order id id.val bitOffset bitLength with fieldType := some fieldType }

theorem size_three_pos : ∀ n ∈ some (3 : UInt32), 0 < n :=
  RepeatingFieldSet.pos_of_some (by decide)

def libraryDataGroup : PgnInfo Binary64 where
  pgn := 130571
  id := ⟨"libraryDataGroup", by decide⟩
  description := "Library Data Group"
  packetType := .fast
  fallback := none
  priority := none
  length := none
  fields :=
    [ libraryNumber 1 ⟨"source", Eq.refl true⟩ 0 8 .lookup,
      libraryNumber 2 ⟨"number", Eq.refl true⟩ 8 8 .number,
      libraryNumber 3 ⟨"type", by decide⟩ 16 8 .lookup,
      libraryNumber 4 ⟨"zone", by decide⟩ 24 8 .lookup,
      libraryNumber 5 ⟨"groupId", by decide⟩ 32 32 .number,
      libraryNumber 6 ⟨"idOffset", by decide⟩ 64 16 .number,
      libraryNumber 7 ⟨"idCount", by decide⟩ 80 16 .number,
      libraryNumber 8 ⟨"totalIdCount", by decide⟩ 96 16 .number,
      libraryNumber 9 ⟨"idType", by decide⟩ 112 8 .lookup,
      libraryNumber 10 ⟨"id", by decide⟩ 120 32 .number,
      { libraryNumber 11 ⟨"name", by decide⟩ 152 0 .stringLau with bitLength := none },
      { libraryNumber 12 ⟨"artist", by decide⟩ 0 0 .stringLau with
        bitLength := none, bitOffset := none } ]
  repeatingFieldSet1 := ⟨some 3, some 9, some 7, size_three_pos⟩
  repeatingFieldSet2 := .none
  idIsPinned := false

def libraryDatabase : PgnDatabase Binary64 where
  units := .metric
  pgns := [libraryDataGroup]
  lookups := []
  bitLookups := []
  indirectLookups := []
  fieldTypeLookups := []
  claimFlat := by decide +kernel

/-- So many titles, with an artist after them. -/
def libraryFrame (titles : UInt8) : RawFrame where
  timestamp := none
  prio := 6
  pgn := 130571
  src := 7
  dst := 255
  data := [0, 1, 2, 3, 4, 0, 0, 0, 0, 0, titles, 0, titles, 0] ++
    (List.replicate titles.toNat [1, 9, 0, 0, 0, 3, 1, 0x41]).flatten ++ [3, 1, 0x42]

/-- The artist after forty titles is decoded, and not found. -/
theorem artist_not_found :
    (libraryDatabase.decode (libraryFrame 40)).toOption.map
      (fun d => ((d.field 12).isSome, (d.scan 12).isSome)) = some (false, true) := by
  decide +kernel

theorem field_eq_scan_iff_library :
    ∃ d, libraryDatabase.decode (libraryFrame 1) = .ok d ∧
      ∀ f ∈ libraryDataGroup.fields, d.field f.order = d.scan f.order := by
  obtain ⟨d, hdecode⟩ : ∃ d, libraryDatabase.decode (libraryFrame 1) = .ok d := by
    have hsome : (libraryDatabase.decode (libraryFrame 1)).toOption.isSome = true := by
      decide +kernel
    cases hresult : libraryDatabase.decode (libraryFrame 1) with
    | ok d => exact ⟨d, rfl⟩
    | error e =>
        rw [hresult] at hsome
        cases hsome
  refine ⟨d, hdecode, ?_⟩
  have hordered : libraryDataGroup.Ordered := by
    intro i f hf
    obtain ⟨hlt, rfl⟩ := List.getElem?_eq_some_iff.mp hf
    have hall : ∀ i (h : i < 12), (libraryDataGroup.fields[i]).order.toNat = i + 1 := by decide
    exact hall i hlt
  have hpick : libraryDatabase.pickVariant (libraryFrame 1) = some libraryDataGroup :=
    libraryDatabase.pickVariant_of_single (by decide +kernel) rfl (by decide +kernel)
  refine (field_eq_scan_iff libraryDatabase (libraryFrame 1) d libraryDataGroup hpick hdecode
    hordered).1.mpr ?_
  have hsmall : ((libraryDatabase.decode (libraryFrame 1)).toOption.map fun d =>
      (d.fields.length < 127 ∧ ∀ e ∈ d.fields, e.order.toNat ≤ indexSlots : Bool)) = some true := by
    decide +kernel
  rw [hdecode] at hsmall
  obtain ⟨hlength, horders⟩ := of_decide_eq_true (Option.some.inj hsmall)
  intro p e he _
  obtain ⟨hlt, -⟩ := List.getElem?_eq_some_iff.mp he
  exact ⟨horders e (List.mem_of_getElem? he), hlt.trans hlength⟩

end Canboat
