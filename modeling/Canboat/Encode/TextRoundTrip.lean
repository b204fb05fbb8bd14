import Mathlib.Data.List.Forall2
import Canboat.Encode.Kept

/-!
# Text, there and back

A message that a builder has made, decoded with the same definition. Where the decoder starts each
value as the builder wrote it, it reads every value as it was written, and of a text all but a last
letter that it takes for padding.
-/

namespace Canboat

open LittleEndian BitBuffer

variable {F : Type} [Float64 F]

/-! ## The layout -/

/-- Where the decoder starts the field, when it has come to `cursor`. -/
def FieldInfo.startAt (f : FieldInfo F) (cursor : ℕ) : ℕ :=
  (f.bitOffset.map (·.toNat)).getD cursor

/-- The builder has come to `pos` and the decoder to `cursor`: the decoder starts every value and
every text of variable length where the builder wrote it, and its sums are numbers of 32 bits. -/
def Laid (total : ℕ) : ℕ → ℕ → List (FieldInfo F × Option Staged) → Prop
  | _, _, [] => True
  | pos, cursor, (f, s) :: items =>
      if f.condition.isSome then s = none ∧ Laid total (pos + f.written s) cursor items
      else
        (s.isSome ∨ f.fieldType = some .stringLau →
          f.startAt cursor = pos ∧ f.Fits s total pos) ∧
        f.startAt cursor + f.taken s total (f.startAt cursor) < 4294967296 ∧
        Laid total (pos + f.written s) (f.startAt cursor + f.taken s total (f.startAt cursor)) items

/-- A definition without repeating sets. -/
def PgnInfo.NoSets (info : PgnInfo F) : Prop :=
  ∀ f ∈ info.fields, Source.startOf info.repeatingFieldSet1 f = none ∧
    Source.startOf info.repeatingFieldSet2 f = none

/-- The fields before this one that the decoder does not leave out. -/
def PgnInfo.decodedIndex (info : PgnInfo F) (idx : ℕ) : ℕ :=
  ((info.fields.take idx).filter (·.condition.isNone)).length

/-- The value that the field at an index was decoded to. -/
def PgnInfo.valueAt (info : PgnInfo F) (fields : List (DecodedField F)) (idx : ℕ) :
    Option (FieldValue F) :=
  fields[info.decodedIndex idx]?.map (·.value)

/-! ## One field -/

section Fields

variable {db : PgnDatabase F} {info : PgnInfo F} {f : FieldInfo F} {s : Option Staged}
  {before after : List (ℕ × UInt64)} {data : List UInt8} {off : UInt32} {ctx : DecodeContext F}

omit [Float64 F] in
/-- A field that can be left unset. -/
theorem writeUnset_ok {b b' : BitBuffer} (h : PgnBuilder.writeUnset b f = .ok b') :
    f.fieldType = some .stringLau ∨ f.fixedWidth = true ∧ ((∃ bl, f.bitLength = some bl) ∨
      f.fieldType = some .stringLz ∨ f.fieldType = some .binary) := by
  unfold PgnBuilder.writeUnset at h
  unfold FieldInfo.fixedWidth
  generalize f.fieldType = t at h
  generalize f.bitLength = bl at h
  cases bl with
  | some bl =>
      rcases t with - | t
      · exact .inr ⟨rfl, .inl ⟨bl, rfl⟩⟩
      · cases t with
        | stringLau => exact .inl rfl
        | «variable» | dynamicFieldValue => cases h
        | _ => exact .inr ⟨rfl, .inl ⟨bl, rfl⟩⟩
  | none =>
      rcases t with - | t
      · cases h
      · cases t with
        | stringLau => exact .inl rfl
        | stringLz => exact .inr ⟨rfl, .inr (.inl rfl)⟩
        | binary => exact .inr ⟨rfl, .inr (.inr rfl)⟩
        | _ => cases h

/-- A text or bytes to the end of the payload, when they are not set. -/
theorem readsAs_rest (htype : f.fieldType = some .stringLz ∨ f.fieldType = some .binary)
    (hbl : f.bitLength = none) (hshort : 8 * data.length < 4294967296) :
    ∃ x, ReadsAs db info f data off ctx none x := by
  obtain ⟨rest, hrest⟩ : ∃ rest : UInt32,
      rest = UInt32.ofNat ((min (data.length * 8) 4294967295 - off.toNat) / 8 * 8) := ⟨_, rfl⟩
  have hnat : rest.toNat = (8 * data.length - off.toNat) / 8 * 8 := by
    rw [hrest, UInt32.toNat_ofNat']
    omega
  rcases htype with htype | htype
  · refine ⟨decodeStringLz data off rest, .single f (decodeStringLz data off rest) off rest none,
      rest, ctx, ?_, rfl, by rw [hnat, FieldInfo.taken, htype, hbl], rfl⟩
    unfold decodeOneFieldAt decodeSelfContained
    rw [htype, hbl, hrest]
    rfl
  · refine ⟨decodeBinary data off rest, .single f (decodeBinary data off rest) off rest none,
      rest, ctx, ?_, rfl, by rw [hnat, FieldInfo.taken, htype, hbl], rfl⟩
    unfold decodeOneFieldAt decodeSelfContained
    rw [htype, hbl, hrest]
    rfl

/-- A text that is left unset takes its length and its encoding. -/
theorem Stands.readsAs_unset (h : Stands f none before after data off)
    (htype : f.fieldType = some .stringLau) : ∃ x, ReadsAs db info f data off ctx none x := by
  have hwrites : f.writes none = f.writes (some (.bytes [2, 1])) := by
    rw [FieldInfo.writes, FieldInfo.writes, htype]
    rfl
  have hfits := h.fits
  have hstands : Stands f (some (.bytes (UInt8.ofNat (([] : List UInt8).length + 2) :: 1 :: [])))
      before after data off := by
    refine ⟨h.payload_eq.trans (by rw [hwrites]; rfl), h.start, h.short, ?_⟩
    unfold FieldInfo.Fits at hfits ⊢
    rw [htype] at hfits ⊢
    exact hfits
  obtain ⟨d, bits, ctx', hd, hinfo, hbits, -⟩ :=
    @Stands.readsAs_stringLau F _ db info f before after data off ctx [] hstands htype (by decide)
  refine ⟨d.value, d, bits, ctx', hd, hinfo, ?_, rfl⟩
  rw [hbits, FieldInfo.taken, FieldInfo.taken, htype, FieldInfo.written, FieldInfo.written, hwrites]
  rfl

/-- **One field.** It is decoded, in the bits that the layout says, and a value is read as if it
were alone. -/
theorem readsAs_item (hstaged : ∀ st, s = some st → ∃ v, stageValue db f v = .ok st)
    (hwrite : ∃ c c', PgnBuilder.writeField c f s = .ok c')
    (hdata : data = payload (before ++ (f.writes s ++ after)))
    (hshort : 8 * data.length < 4294967296)
    (hlaid : s.isSome ∨ f.fieldType = some .stringLau →
      off.toNat = widthOf before ∧ f.Fits s (8 * data.length) (widthOf before)) :
    ∃ x, ReadsAs db info f data off ctx s x ∧
      ∀ st, s = some st → f.valueAlone db info data st = some x := by
  cases s with
  | some st =>
      obtain ⟨v, hv⟩ := hstaged st rfl
      obtain ⟨hstart, hfits⟩ := hlaid (.inl rfl)
      obtain ⟨x, hread, halone⟩ :=
        (Stands.mk hdata hstart hshort hfits).readsAs (stageValue_formed hv)
      refine ⟨x, hread, ?_⟩
      rintro _ ⟨rfl⟩
      exact halone
  | none =>
      suffices hread : ∃ x, ReadsAs db info f data off ctx none x by
        obtain ⟨x, hread⟩ := hread
        exact ⟨x, hread, nofun⟩
      obtain ⟨c, c', hwrite⟩ := hwrite
      rcases writeUnset_ok hwrite with hlau | ⟨hfixed, hbl⟩
      · obtain ⟨hstart, hfits⟩ := hlaid (.inr hlau)
        exact (Stands.mk hdata hstart hshort hfits).readsAs_unset hlau
      · cases hwidth : f.bitLength with
        | some bl => exact ⟨_, readsAs_width hfixed hwidth⟩
        | none =>
            refine readsAs_rest ?_ hwidth hshort
            rcases hbl with ⟨bl, hbl⟩ | htype
            · rw [hbl] at hwidth
              cases hwidth
            · exact htype

end Fields

/-! ## The walk -/

omit [Float64 F] in
/-- The decoder leaves no value out. -/
theorem Laid.always {total pos cursor : ℕ} {items : List (FieldInfo F × Option Staged)}
    (h : Laid total pos cursor items) {item : FieldInfo F × Option Staged} (hitem : item ∈ items)
    (hvalue : item.2.isSome = true) : item.1.condition.isNone = true := by
  induction items generalizing pos cursor with
  | nil => nomatch hitem
  | cons first items ih =>
      rw [Laid] at h
      split_ifs at h with hcondition
      · obtain ⟨hnone, h⟩ := h
        rcases List.mem_cons.mp hitem with rfl | hitem
        · rw [hnone] at hvalue
          cases hvalue
        · exact ih h hitem
      · rcases List.mem_cons.mp hitem with rfl | hitem
        · simpa using hcondition
        · exact ih h.2.2 hitem

/-- The decoded field is that of the item, with its value if it has one. -/
structure KeptIn (db : PgnDatabase F) (info : PgnInfo F) (data : List UInt8)
    (item : FieldInfo F × Option Staged) (d : DecodedField F) : Prop where
  info_eq : d.info = item.1
  stands : ∀ st, item.2 = some st →
    ∃ before after off, Stands item.1 (some st) before after data off
  value : ∀ st, item.2 = some st → item.1.valueAlone db info data st = some d.value

/-- **The walk over a message as it was laid out.** -/
theorem walk_laid {db : PgnDatabase F} {info : PgnInfo F} {data : List UInt8}
    {items : List (FieldInfo F × Option Staged)}
    (hsets : ∀ item ∈ items, Source.startOf info.repeatingFieldSet1 item.1 = none ∧
      Source.startOf info.repeatingFieldSet2 item.1 = none)
    (hstaged : ∀ item ∈ items, ∀ st, item.2 = some st → ∃ v, stageValue db item.1 v = .ok st)
    (hwrite : ∀ item ∈ items, ∃ c c', PgnBuilder.writeField c item.1 item.2 = .ok c')
    {before after : List (ℕ × UInt64)}
    (hdata : data = payload (before ++ (PgnBuilder.itemWrites items ++ after)))
    (hshort : 8 * data.length < 4294967296) {w : Walk F}
    (hlaid : Laid (8 * data.length) (widthOf before) w.cursorBits.toNat items)
    (entered : Bool × Bool) :
    ∃ w' ds, Source.walk ⟨claimFields db, info, data, db⟩ 0 (items.map (·.1)) entered w =
        (w', entered) ∧ w'.out = w.out ++ ds ∧
      List.Forall₂ (KeptIn db info data) (items.filter (·.1.condition.isNone)) ds := by
  induction items generalizing before w with
  | nil => exact ⟨w, [], by rw [List.map_nil, Source.walk], (List.append_nil _).symm, .nil⟩
  | cons item items ih =>
      obtain ⟨f, s⟩ := item
      obtain ⟨⟨hset1, hset2⟩, hsets⟩ := List.forall_mem_cons.mp hsets
      obtain ⟨hvalue, hstaged⟩ := List.forall_mem_cons.mp hstaged
      obtain ⟨hfield, hwrite⟩ := List.forall_mem_cons.mp hwrite
      have hnext : data =
          payload ((before ++ f.writes s) ++ (PgnBuilder.itemWrites items ++ after)) := by
        rw [hdata, PgnBuilder.itemWrites, List.flatMap_cons, List.append_assoc, List.append_assoc]
        rfl
      have hpos : widthOf (before ++ f.writes s) = widthOf before + f.written s :=
        widthOf_append before (f.writes s)
      rw [List.map_cons, Source.walk, hset1, hset2]
      dsimp only
      rw [Laid] at hlaid
      by_cases hcondition : f.condition.isSome = true
      · -- neither has a value for it
        rw [if_pos hcondition] at hlaid ⊢
        obtain ⟨-, hlaid⟩ := hlaid
        rw [← hpos] at hlaid
        obtain ⟨w', ds, hwalk, hout, hkept⟩ := ih hsets hstaged hwrite hnext hlaid
        refine ⟨w', ds, hwalk, hout, ?_⟩
        have hskipped : ¬f.condition.isNone = true := by
          intro hnone
          rw [Option.isNone_iff_eq_none.mp hnone] at hcondition
          cases hcondition
        have hfilter : ((f, s) :: items).filter (·.1.condition.isNone) =
            items.filter (·.1.condition.isNone) := List.filter_cons_of_neg hskipped
        rw [hfilter]
        exact hkept
      · rw [if_neg hcondition] at hlaid ⊢
        obtain ⟨hplace, hroom, hlaid⟩ := hlaid
        have hstart : (f.bitOffset.getD w.cursorBits).toNat = f.startAt w.cursorBits.toNat := by
          rw [FieldInfo.startAt]
          cases f.bitOffset <;> rfl
        rw [← hstart] at hplace hroom hlaid
        have hdata' : data = payload (before ++ (f.writes s ++
            (PgnBuilder.itemWrites items ++ after))) := by rw [hnext, List.append_assoc]
        obtain ⟨x, ⟨d, bits, ctx', hd, hinfo, hbits, hx⟩, halone⟩ :=
          @readsAs_item F _ db info f s before _ data _ w.ctx hvalue hfield hdata' hshort hplace
        have hend : (f.bitOffset.getD w.cursorBits + bits).toNat =
            (f.bitOffset.getD w.cursorBits).toNat + f.taken s (8 * data.length)
              (f.bitOffset.getD w.cursorBits).toNat := by
          rw [UInt32.toNat_add, hbits]
          exact Nat.mod_eq_of_lt hroom
        rw [← hpos, ← hend] at hlaid
        rw [hd]
        dsimp only
        obtain ⟨w', ds, hwalk, hout, hkept⟩ := @ih hsets hstaged hwrite _ hnext
          ⟨f.bitOffset.getD w.cursorBits + bits, w.out ++ [d], ctx'⟩ hlaid
        refine ⟨w', d :: ds, hwalk, ?_, ?_⟩
        · rw [hout, List.append_assoc, List.singleton_append]
        · have hfilter : ((f, s) :: items).filter (·.1.condition.isNone) =
              (f, s) :: items.filter (·.1.condition.isNone) :=
            List.filter_cons_of_pos (by simpa using hcondition)
          rw [hfilter]
          refine .cons ⟨hinfo, ?_, ?_⟩ hkept
          · rintro st rfl
            obtain ⟨hstart, hfits⟩ := hplace (.inl rfl)
            exact ⟨_, _, _, hdata', hstart, hshort, hfits⟩
          · intro st hst
            rw [halone st hst, hx]

theorem getElem?_filter {α : Type} {p : α → Bool} {l : List α} {k : ℕ} {a : α} (h : l[k]? = some a)
    (ha : p a = true) : (l.filter p)[((l.take k).filter p).length]? = some a := by
  induction l generalizing k with
  | nil => cases h
  | cons b l ih =>
      cases k with
      | zero =>
          cases h
          rw [List.filter_cons_of_pos ha]
          rfl
      | succ k =>
          have hrest := ih (k := k) h
          rw [List.take_succ_cons]
          by_cases hb : p b = true
          · rw [List.filter_cons_of_pos hb, List.filter_cons_of_pos hb, List.length_cons,
              List.getElem?_cons_succ, hrest]
          · rw [List.filter_cons_of_neg hb, List.filter_cons_of_neg hb, hrest]

theorem forall₂_getElem? {α β : Type} {R : α → β → Prop} {as : List α} {bs : List β}
    (h : List.Forall₂ R as bs) {k : ℕ} {a : α} (ha : as[k]? = some a) :
    ∃ b, bs[k]? = some b ∧ R a b := by
  induction h generalizing k with
  | nil => cases ha
  | cons hab _ ih =>
      cases k with
      | zero =>
          cases ha
          exact ⟨_, rfl, hab⟩
      | succ k => exact ih ha

section Messages

variable {db : PgnDatabase F} {info : PgnInfo F} {pushes : List (PgnBuilder.Push F)}
  {b : PgnBuilder F} {frame : RawFrame}

/-- A message that was built from pushes, in the layout of its definition. -/
structure BuiltFrom (db : PgnDatabase F) (info : PgnInfo F) (pushes : List (PgnBuilder.Push F))
    (b : PgnBuilder F) (frame : RawFrame) : Prop where
  pushed : (PgnBuilder.forPgn db info).pushAll pushes = .ok b
  built : b.build = .ok frame
  noSets : info.NoSets
  short : 8 * frame.data.length < 4294967296
  laid : Laid (8 * frame.data.length) 0 0 b.items

/-- **Every value that was pushed is kept.** It is decoded to what it is by itself. -/
theorem BuiltFrom.valueAt_eq (h : BuiltFrom db info pushes b frame) {idx : ℕ} {f : FieldInfo F}
    (hf : info.fields[idx]? = some f) {v : EncodeValue F}
    (hv : PgnBuilder.lastPushed pushes idx = some v) :
    ∃ st, stageValue db f v = .ok st ∧
      (∃ before after off, Stands f (some st) before after frame.data off) ∧
      info.valueAt (decodeFields info frame.data db).1 idx =
        f.valueAlone db info frame.data st := by
  obtain ⟨hpgn, hdb, hholds⟩ := PgnBuilder.holdsValues_pushAll h.pushed
  obtain ⟨hdata, hwrite⟩ := PgnBuilder.build_ok h.built
  have hitems : b.items.map (·.1) = info.fields := by
    rw [PgnBuilder.items, List.map_fst_zip (by rw [b.aligned]), hpgn]
  -- each item holds what was pushed for it
  have hget : ∀ (i : ℕ) (g : FieldInfo F) (s : Option Staged), b.items[i]? = some (g, s) →
      info.fields[i]? = some g ∧ b.staged[i]? = some s := by
    intro i g s hi
    rw [PgnBuilder.items, List.getElem?_zip_eq_some, hpgn] at hi
    exact hi
  have hstaged : ∀ item ∈ b.items, ∀ st, item.2 = some st →
      ∃ v, stageValue db item.1 v = .ok st := by
    rintro ⟨g, s⟩ hitem st hst
    obtain ⟨i, hi⟩ := List.mem_iff_getElem?.mp hitem
    obtain ⟨hg, hs⟩ := hget i g s hi
    cases hvalue : PgnBuilder.lastPushed pushes i with
    | none =>
        have hunset := hholds.unset i g (by rw [hpgn]; exact hg) hvalue
        rw [hs] at hunset
        rw [Option.some.inj hunset] at hst
        cases hst
    | some u =>
        obtain ⟨st', hst', hset⟩ := hholds.set i g u (by rw [hpgn]; exact hg) hvalue
        rw [hs] at hset
        rw [Option.some.inj hset] at hst
        refine ⟨u, ?_⟩
        rw [← hdb, hst', Option.some.inj hst]
  have hsets : ∀ item ∈ b.items, Source.startOf info.repeatingFieldSet1 item.1 = none ∧
      Source.startOf info.repeatingFieldSet2 item.1 = none := by
    intro item hitem
    apply h.noSets
    rw [← hitems]
    exact List.mem_map_of_mem hitem
  obtain ⟨w', ds, hwalk, hout, hkept⟩ := @walk_laid F _ db info frame.data b.items hsets hstaged
    hwrite [] _ hdata h.short ⟨0, [], .empty⟩ h.laid (false, false)
  obtain ⟨st, hst, hset⟩ := hholds.set idx f v (by rw [hpgn]; exact hf) hv
  have hdecoded : (decodeFields info frame.data db).1 = ds := by
    rw [decodeFields, Source.decode, ← hitems, hwalk]
    exact hout
  have hitem : b.items[idx]? = some (f, some st) := by
    rw [PgnBuilder.items, List.getElem?_zip_eq_some, hpgn]
    exact ⟨hf, hset⟩
  have halways := h.laid.always (List.mem_of_getElem? hitem) rfl
  obtain ⟨d, hd, hfield⟩ := forall₂_getElem? hkept (getElem?_filter hitem halways)
  have hindex : ((b.items.take idx).filter (·.1.condition.isNone)).length =
      info.decodedIndex idx := by
    rw [PgnInfo.decodedIndex, ← hitems, ← List.map_take, List.filter_map, List.length_map]
    rfl
  rw [hindex] at hd
  refine ⟨st, by rw [← hdb]; exact hst, hfield.stands st rfl, ?_⟩
  rw [PgnInfo.valueAt, hdecoded, hd, hfield.value st rfl]
  rfl

/-! ## Texts -/

/-- What a text that is kept has to be: neither empty nor with a NUL, and without the padding that
the format itself has. -/
structure PlainText (text : List Char) : Prop where
  nonempty : text ≠ []
  noNul : '\x00' ∉ text
  noPadding : ∀ c ∈ text.getLast?, c ≠ '@' ∧ c ≠ ' '

theorem PlainText.last {text : List Char} (h : PlainText text) :
    ∀ c ∈ text.getLast?, c ≠ '\x00' ∧ c ≠ '@' ∧ c ≠ ' ' := by
  intro c hc
  refine ⟨?_, h.noPadding c hc⟩
  rintro rfl
  exact h.noNul (List.mem_of_getLast? hc)

/-- What the decoder takes for padding. -/
def isPaddingLetter (c : Char) : Bool := c == '\x00' || c == '@' || c == ' ' || c == 'ÿ'

omit [Float64 F] in
/-- The *letter* U+00FF counts as padding, where the byte was meant. -/
theorem paddedText_eq_iff {text : List Char} (h : PlainText text) :
    (paddedText text : FieldValue F) = .string text ↔ text.getLast? ≠ some 'ÿ' := by
  obtain ⟨init, c, rfl⟩ : ∃ init c, text = init ++ [c] :=
    ⟨_, _, (List.dropLast_concat_getLast h.nonempty).symm⟩
  have hlast := h.last c (by rw [List.getLast?_concat]; rfl)
  rw [List.getLast?_concat]
  have htrim : ∀ s, trimStringPadding s = trimEnd isPaddingLetter s := fun _ => rfl
  unfold paddedText
  rw [htrim]
  by_cases hc : c = 'ÿ'
  · rw [trimEnd_concat_of_pos (by rw [hc]; decide)]
    refine ⟨?_, fun hne => absurd (congrArg some hc) hne⟩
    intro heq
    exfalso
    dsimp only at heq
    split_ifs at heq
    injection heq with heq
    have hle := length_trimEnd_le isPaddingLetter init
    rw [heq, List.length_append, List.length_singleton] at hle
    omega
  · have hkept : ¬isPaddingLetter c = true := by
      simp only [isPaddingLetter, Bool.or_eq_true, beq_iff_eq, not_or]
      exact ⟨⟨⟨hlast.1, hlast.2.1⟩, hlast.2.2⟩, hc⟩
    rw [trimEnd_concat_of_neg hkept]
    have hempty : ¬(init ++ [c]).isEmpty = true := by simp
    dsimp only
    rw [if_neg hempty]
    exact ⟨fun _ heq => hc (Option.some.inj heq), fun _ => rfl⟩

omit [Float64 F] in
theorem fixedText_zeros {text : List Char} (h : PlainText text) (fill : ℕ) :
    (fixedText (utf8Bytes text ++ List.replicate fill 0) : FieldValue F) = .string text := by
  have htake : (utf8Bytes text ++ List.replicate fill 0).takeWhile (· ≠ 0) = utf8Bytes text := by
    have hbytes : ∀ b ∈ utf8Bytes text, decide (b ≠ 0) = true := by
      intro b hb
      refine decide_eq_true ?_
      rintro rfl
      exact zero_not_mem_utf8Bytes h.noNul hb
    rw [List.takeWhile_append_of_pos hbytes]
    cases fill with
    | zero => exact List.append_nil _
    | succ fill =>
        rw [List.replicate_succ, List.takeWhile_cons_of_neg (by decide), List.append_nil]
  have hne : ¬(utf8Bytes text).isEmpty = true := by
    intro hempty
    have hback := fromUtf8Lossy_utf8Bytes text
    rw [List.isEmpty_iff.mp hempty] at hback
    exact h.nonempty hback.symm
  unfold fixedText
  dsimp only
  rw [htake, trimEnd_utf8Bytes h.last, if_neg hne, fromUtf8Lossy_utf8Bytes]

/-- A text field alone shows its text, unless it ends in the letter. -/
theorem valueAlone_text {f : FieldInfo F} {text : List Char} (htext : PlainText text) {st : Staged}
    (hst : stageValue db f (.text text) = .ok st) {before after : List (ℕ × UInt64)}
    {data : List UInt8} {off : UInt32} (hstands : Stands f (some st) before after data off)
    (htype : f.fieldType = some .stringFix ∨ f.fieldType = some .stringLz ∨
      f.fieldType = some .stringLau) :
    f.valueAlone db info data st = some (.string text) ↔
      (f.fieldType = some .stringFix ∨ text.getLast? ≠ some 'ÿ') := by
  have htextOf : ∀ {t : List Char}, textOf f (.text text) = .ok t → t = text := by
    intro t ht
    cases ht
    rfl
  cases stageValue_formed hst with
  | stringFix hfix ht hbl hwidth =>
      have halone : f.valueAlone db info data _ = _ :=
        ((hstands.alone hstands.fits_alone).readsAs_stringFix hfix hbl).valueAlone (by rw [hfix]; nofun)
      rw [halone, htextOf ht, fixedText_zeros htext]
      exact ⟨fun _ => .inl hfix, fun _ => rfl⟩
  | stringLz hlz ht hlength hwidth =>
      have halone : f.valueAlone db info data _ = _ :=
        ((hstands.alone hstands.fits_alone).readsAs_stringLz hlz hlength hwidth).valueAlone
          (by rw [hlz]; nofun)
      rw [halone, htextOf ht, fromUtf8Lossy_utf8Bytes, Option.some_inj, paddedText_eq_iff htext]
      refine ⟨.inr, ?_⟩
      rintro (hfix | hlast)
      · rw [hlz] at hfix
        cases hfix
      · exact hlast
  | stringLau hlau ht hlength =>
      have halone : f.valueAlone db info data _ = _ :=
        ((hstands.alone hstands.fits_alone).readsAs_stringLau hlau hlength).valueAlone
          (by rw [hlau]; nofun)
      rw [halone, htextOf ht, trimEnd_utf8Bytes htext.last, fromUtf8Lossy_utf8Bytes, Option.some_inj,
        paddedText_eq_iff htext]
      refine ⟨.inr, ?_⟩
      rintro (hfix | hlast)
      · rw [hlau] at hfix
        cases hfix
      · exact hlast
  | binary hbinary bytes => rw [hbinary] at htype; simp at htype
  | dynamicFieldValue hdynamic bytes => rw [hdynamic] at htype; simp at htype
  | scalar hothers =>
      rcases htype with htype | htype | htype
      · exact absurd htype hothers.1
      · exact absurd htype hothers.2.1
      · exact absurd htype hothers.2.2.1

end Messages

/-! ## A message of a text and a number -/

/-- A text, then a number after it. -/
def noteFields : List (FieldInfo Binary64) :=
  [{ textField with order := 1 },
    FieldInfo.number (Float64.ofInt 0) 2 ⟨"number", by decide⟩ 16]

def notePgn : PgnInfo Binary64 := smallPgn noteFields .none

def notePushes (text : List Char) : List (PgnBuilder.Push Binary64) :=
  [⟨1, ⟨"text", Eq.refl true⟩, .text text⟩, ⟨2, ⟨"number", by decide⟩, .int 513⟩]

/-- The builder after the pushes, with the text in its bytes. -/
def noteBuilder (bytes : List UInt8) : PgnBuilder Binary64 :=
  ((PgnBuilder.forPgn smallDatabase notePgn).withStaged 0 (.bytes bytes)).withStaged 1 (.scalar 513)

def noteFrame (data : List UInt8) : RawFrame where
  timestamp := none
  prio := 6
  pgn := 130000
  src := 0
  dst := 255
  data := data

theorem noSets_note : notePgn.NoSets := by
  intro f _
  rw [Source.startOf, Source.startOf]
  split_ifs <;> exact ⟨rfl, rfl⟩

theorem built_note : BuiltFrom smallDatabase notePgn (notePushes ['h', 'é'])
    (noteBuilder [5, 1, 0x68, 0xc3, 0xa9]) (noteFrame [5, 1, 0x68, 0xc3, 0xa9, 1, 2]) where
  pushed := rfl
  built := rfl
  noSets := noSets_note
  short := by decide
  laid := ⟨fun _ => ⟨rfl, rfl⟩, by decide, fun _ => ⟨rfl, trivial⟩, by decide, trivial⟩

end Canboat
