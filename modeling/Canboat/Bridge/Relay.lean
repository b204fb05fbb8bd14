import Canboat.Bridge.Injection
import Canboat.Format.PlainCut

/-!
# From one server to another

The stream of raw lines of one server is fed into the input port of another. The bytes may come in
any pieces, late, or not all of them.
-/

namespace Canboat

open Checked

/-! ## Lines of text as bytes -/

/-- A byte of ASCII is that character. -/
theorem toNat_of_mem_utf8EncodeChar {c : Char} {b : UInt8} (h : b ∈ String.utf8EncodeChar c)
    (hb : b.toNat < 128) : c.toNat = b.toNat := by
  have hval : c.val.toNat = c.toNat := rfl
  rw [String.utf8EncodeChar] at h
  simp only [hval] at h
  split_ifs at h <;> simp only [List.mem_cons, List.not_mem_nil, or_false] at h
  · subst h
    rw [UInt8.toNat_ofNat', Nat.mod_eq_of_lt (by omega)]
  all_goals
    exfalso
    rcases h with rfl | rfl | rfl | rfl <;> simp at hb <;> omega

theorem not_mem_utf8Bytes {c : Char} (hc : Plain.Ascii c) {s : List Char} (h : c ∉ s) :
    UInt8.ofNat c.toNat ∉ utf8Bytes s := by
  intro hmem
  have hlt : c.toNat < 128 := hc
  have hbyte : (UInt8.ofNat c.toNat).toNat = c.toNat := by
    rw [UInt8.toNat_ofNat', Nat.mod_eq_of_lt (by omega)]
  obtain ⟨d, hd, hb⟩ := List.mem_flatMap.mp hmem
  have hnat := toNat_of_mem_utf8EncodeChar hb (by rwa [hbyte])
  rw [hbyte, Char.toNat_inj] at hnat
  exact h (hnat ▸ hd)

theorem fromUtf8Lossy_utf8Bytes_append (s : List Char) (r : List UInt8) :
    fromUtf8Lossy (utf8Bytes s ++ r) = s ++ fromUtf8Lossy r := by
  induction s with
  | nil => rfl
  | cons c s ih =>
      rw [fromUtf8Lossy, utf8Bytes, List.flatMap_cons, List.append_assoc, utf8LossyFrom_encode]
      exact congrArg (c :: ·) ih

theorem fromUtf8_utf8Bytes (s : List Char) : fromUtf8 (utf8Bytes s) = some s := by
  rw [fromUtf8, fromUtf8Lossy_utf8Bytes, if_pos rfl]

/-- A beginning that is text is a beginning of the text. -/
theorem begins_of_fromUtf8 {p : List UInt8} {s t : List Char} (hp : p <+: utf8Bytes s)
    (ht : fromUtf8 p = some t) : utf8Bytes t = p ∧ t <+: s := by
  have hbytes : utf8Bytes t = p := by
    rw [fromUtf8] at ht
    split_ifs at ht with hsame
    cases ht
    exact hsame
  refine ⟨hbytes, ?_⟩
  obtain ⟨r, hr⟩ := hp
  have htext := fromUtf8Lossy_utf8Bytes_append t r
  rw [hbytes, hr, fromUtf8Lossy_utf8Bytes] at htext
  exact ⟨_, htext.symm⟩

/-! ## Texts that are lines -/

/-- A text that is read as a line with an end behind it, and as no frame when it is cut short. -/
structure IsLine (text : List UInt8) : Prop where
  newline : 0x0a ∉ text
  carriage : text.getLast? ≠ some 0x0d
  cut : ∀ p, p <+: text → p ≠ text → lineFrame p = none

section

variable {closed : Bool} {text rest : List UInt8}

theorem takeWhile_line (h : 0x0a ∉ text) (rest : List UInt8) :
    (text ++ 0x0a :: rest).takeWhile (· ≠ 0x0a) = text := by
  have hne : ∀ b ∈ text, decide (b ≠ 0x0a) = true := by
    intro b hb
    rw [decide_eq_true_eq]
    rintro rfl
    exact h hb
  rw [List.takeWhile_append_of_pos hne, List.takeWhile_cons_of_neg (by decide), List.append_nil]

/-- A line and what is behind it. -/
theorem streamLines_line (h : IsLine text) (closed : Bool) (rest : List UInt8) :
    streamLines closed (text ++ 0x0a :: rest) = text :: streamLines closed rest := by
  have hparse : lineReader.parse () (text ++ 0x0a :: rest) = some (text, text.length + 1) := by
    show (if _ < _ then some (chopCarriageReturn _, _) else none) = _
    rw [takeWhile_line h.newline, List.length_append, List.length_cons, if_pos (by omega),
      List.take_left, chopCarriageReturn, if_neg h.carriage]
  have hdrop : (text ++ 0x0a :: rest).drop (text.length + 1) = rest := by
    rw [← List.singleton_append, ← List.append_assoc]
    exact List.drop_left' (List.length_append ..)
  rw [streamLines, Incremental.drain_of_parse hparse, hdrop, streamLines]
  split_ifs
  · rfl
  · rfl

/-- A line without an end. -/
theorem streamLines_text (h : 0x0a ∉ text) (closed : Bool) :
    streamLines closed text = if closed = true ∧ text ≠ [] then [text] else [] := by
  have hne : ∀ b ∈ text, decide (b ≠ 0x0a) = true := by
    intro b hb
    rw [decide_eq_true_eq]
    rintro rfl
    exact h hb
  have hparse : lineReader.parse () text = none := by
    show (if _ < _ then some (chopCarriageReturn _, _) else none) = _
    rw [List.takeWhile_eq_self_iff.mpr hne]
    exact if_neg (Nat.lt_irrefl _)
  rw [streamLines, Incremental.drain_of_parse_none hparse]
  rfl

/-- However much of the lines comes, and even if it ends in the middle of one, it has the frames of
the first lines. -/
theorem framesOf_cut {texts : List (List UInt8)} (h : ∀ text ∈ texts, IsLine text) {got : List UInt8}
    (hgot : got <+: texts.flatMap (· ++ [0x0a])) (closed : Bool) :
    framesOf (streamLines closed got) <+: framesOf texts := by
  induction texts generalizing got with
  | nil =>
      rw [List.prefix_nil.mp hgot, streamLines_text List.not_mem_nil, if_neg fun h => h.2 rfl]
  | cons text texts ih =>
      obtain ⟨htext, htexts⟩ := List.forall_mem_cons.mp h
      rw [List.flatMap_cons, List.append_assoc, List.singleton_append] at hgot
      have hopen : ∀ p, p <+: text → framesOf (streamLines closed p) <+: framesOf (text :: texts) := by
        intro p hp
        rw [streamLines_text fun hmem => htext.newline (hp.subset hmem)]
        split_ifs with hlast
        · by_cases hall : p = text
          · rw [hall]
            exact framesOf_begins (List.prefix_append [text] texts)
          · rw [framesOf, List.filterMap_cons_none (htext.cut p hp hall)]
            exact List.nil_prefix
        · exact List.nil_prefix
      rcases Plain.cut_append hgot with hcut | ⟨t, rfl, ht⟩
      · exact hopen got hcut
      · cases t with
        | nil =>
            rw [List.append_nil]
            exact hopen text (List.prefix_refl _)
        | cons b t =>
            obtain ⟨rfl, hrest⟩ := List.cons_prefix_cons.mp ht
            rw [streamLines_line htext]
            have hlater := ih htexts hrest
            rw [framesOf, framesOf, List.filterMap_cons, List.filterMap_cons]
            cases lineFrame text with
            | none => exact hlater
            | some frame => exact List.cons_prefix_cons.mpr ⟨rfl, hlater⟩

theorem streamLines_all {texts : List (List UInt8)} (h : ∀ text ∈ texts, IsLine text) (closed : Bool) :
    streamLines closed (texts.flatMap (· ++ [0x0a])) = texts := by
  induction texts with
  | nil => exact (streamLines_text List.not_mem_nil closed).trans (if_neg fun h => h.2 rfl)
  | cons text texts ih =>
      obtain ⟨htext, htexts⟩ := List.forall_mem_cons.mp h
      rw [List.flatMap_cons, List.append_assoc, List.singleton_append, streamLines_line htext,
        ih htexts]

end

/-! ## The raw port's lines -/

/-- `# format=FAST`. -/
def formatFastHeader : List UInt8 := utf8Bytes "# format=FAST".toList

def CANBOAT_FORMAT_FAST_HEADER : List UInt8 := formatFastHeader ++ [0x0a]

/-- The line of a message on the raw port. -/
def rawLine (m : RawFrame) : List UInt8 := utf8Bytes (Plain.writeLine m) ++ [0x0a]

/-- A message whose line is taken for what it is. -/
structure Relays (m : RawFrame) : Prop extends Plain.Readable m where
  dollar : (Plain.stampText m).head? ≠ some '$'
  exclamation : (Plain.stampText m).head? ≠ some '!'

/-- The frame as the other server gets it. -/
def relayedFrame (m : RawFrame) : Option RawFrame :=
  if m.pgn = NmeaFilter.PGN_NMEA0183_FILTER ∨ m.pgn = PGN_PGN_OVERRIDE then none else some (stamp m)

theorem header_isLine : IsLine formatFastHeader where
  newline := by decide +kernel
  carriage := by decide +kernel
  cut := by
    have hall : ∀ p ∈ formatFastHeader.inits, lineFrame p = none := by decide +kernel
    intro p hp _
    exact hall p ((List.mem_inits p formatFastHeader).mpr hp)

theorem framesOf_header (texts : List (List UInt8)) :
    framesOf (formatFastHeader :: texts) = framesOf texts := by
  have hnone : lineFrame formatFastHeader = none := by decide +kernel
  rw [framesOf, List.filterMap_cons_none hnone]
  rfl

/-- No frame is read where the reader of lines reads none. -/
theorem plainFrame_none {t : List Char} (h : ∀ g, Plain.parseLine (trimNewlines t) ≠ pure g)
    (frame : RawFrame) : plainFrame t ≠ .ok (some frame) := by
  intro hframe
  rw [plainFrame] at hframe
  split_ifs at hframe
  · cases hframe
  · cases hframe
  · cases hparse : (Plain.parseLine (trimNewlines t)).run with
    | error e =>
        rw [hparse] at hframe
        cases hframe
    | ok r =>
        rw [hparse] at hframe
        cases r with
        | ok g => exact h g hparse
        | error e => cases hframe

namespace Relays

variable {m : RawFrame} (h : Relays m)

include h

theorem isLine : IsLine (utf8Bytes (Plain.writeLine m)) where
  newline := @not_mem_utf8Bytes '\n' (show '\n'.toNat < 128 by decide) _
    (Plain.newline_not_mem_writeLine h.newline)
  carriage := by
    have hbody : '\r' ∉ Plain.body m := fun hmem =>
      absurd (Plain.le_toNat_of_mem_body hmem) (by decide)
    have hbytes := @not_mem_utf8Bytes '\r' (show '\r'.toNat < 128 by decide) _ hbody
    have hne : utf8Bytes (Plain.body m) ≠ [] := by
      obtain ⟨c, s, hc⟩ := List.exists_cons_of_ne_nil (Plain.body_ne_nil m)
      rw [hc]
      exact List.append_ne_nil_of_left_ne_nil String.utf8EncodeChar_ne_nil _
    intro hlast
    rw [Plain.writeLine_eq, Plain.utf8Bytes_append, Plain.utf8Bytes_comma, List.append_cons,
      List.getLast?_append_of_ne_nil _ hne] at hlast
    exact hbytes (List.mem_of_mem_getLast? hlast)
  cut := by
    intro p hp hne
    rw [lineFrame]
    cases ht : fromUtf8 p with
    | none => rfl
    | some t =>
        obtain ⟨hbytes, hbegins⟩ := begins_of_fromUtf8 hp ht
        obtain ⟨ends, hends, -⟩ := eq_trimEnd_append (fun c => c == '\r' || c == '\n') t
        have hcut : trimNewlines t <+: Plain.writeLine m := by
          refine List.IsPrefix.trans ⟨ends, hends.symm⟩ hbegins
        have hshort : trimNewlines t ≠ Plain.writeLine m := by
          intro heq
          have hlength : (Plain.writeLine m).length ≤ t.length := by
            rw [← heq]
            exact length_trimEnd_le _ t
          rw [hbegins.eq_of_length_le hlength] at hbytes
          exact hne hbytes.symm
        have hnone := plainFrame_none (Plain.parseLine_cut h.comma hcut hshort)
        rw [Option.map_some]
        cases hframe : plainFrame t with
        | error e => rfl
        | ok frame =>
            cases frame with
            | none => rfl
            | some frame => exact absurd hframe (hnone frame)

theorem lineFrame_eq : lineFrame (utf8Bytes (Plain.writeLine m)) = relayedFrame m := by
  have hparse := Plain.parseLine_writeLine h.toReadable
  have hhead : ∀ c, c ≠ ',' → (Plain.stampText m).head? ≠ some c →
      (Plain.writeLine m).head? ≠ some c := by
    intro c hc hstamp
    rw [Plain.writeLine_eq]
    cases hts : Plain.stampText m with
    | nil => exact fun heq => hc (Option.some.inj heq).symm
    | cons d ts =>
        rw [hts] at hstamp
        exact hstamp
  have hplain : plainFrame (Plain.writeLine m) = .ok (relayedFrame m) := by
    rw [plainFrame, Plain.trimNewlines_writeLine]
    rw [if_neg (not_or.mpr ⟨Plain.writeLine_ne_nil m, hhead '#' (by decide) h.comment⟩),
      if_neg (not_or.mpr ⟨hhead '$' (by decide) h.dollar, hhead '!' (by decide) h.exclamation⟩),
      hparse, relayedFrame]
    exact (apply_ite Except.ok _ _ _).symm
  rw [lineFrame, fromUtf8_utf8Bytes, Option.map_some, hplain]

end Relays

/-! ## The stream -/

/-- Lines of messages come from messages. -/
theorem exists_messages {lines : List (List UInt8)}
    (h : ∀ line ∈ lines, ∃ m, Relays m ∧ line = rawLine m) :
    ∃ ms : List RawFrame, (∀ m ∈ ms, Relays m) ∧ lines = ms.map rawLine := by
  induction lines with
  | nil => exact ⟨[], nofun, rfl⟩
  | cons line lines ih =>
      obtain ⟨⟨m, hm, rfl⟩, hlines⟩ := List.forall_mem_cons.mp h
      obtain ⟨ms, hms, rfl⟩ := ih hlines
      exact ⟨m :: ms, List.forall_mem_cons.mpr ⟨hm, hms⟩, rfl⟩

/-- What the raw port sends for some messages. -/
def rawStream (ms : List RawFrame) : List UInt8 :=
  CANBOAT_FORMAT_FAST_HEADER ++ (ms.map rawLine).flatten

section

variable {ms : List RawFrame} (hms : ∀ m ∈ ms, Relays m)

/-- The texts of the stream's lines. -/
def streamTexts (ms : List RawFrame) : List (List UInt8) :=
  formatFastHeader :: ms.map fun m => utf8Bytes (Plain.writeLine m)

theorem rawStream_eq (ms : List RawFrame) :
    rawStream ms = (streamTexts ms).flatMap (· ++ [0x0a]) := by
  rw [streamTexts, List.flatMap_cons, List.flatMap_map, rawStream, ← List.flatMap_def]
  rfl

include hms

theorem streamTexts_isLine : ∀ text ∈ streamTexts ms, IsLine text := by
  rw [streamTexts, List.forall_mem_cons, List.forall_mem_map]
  exact ⟨header_isLine, fun m hm => (hms m hm).isLine⟩

theorem framesOf_streamTexts : framesOf (streamTexts ms) = ms.filterMap relayedFrame := by
  rw [streamTexts, framesOf_header, framesOf, List.filterMap_map]
  exact List.filterMap_congr fun m hm => (hms m hm).lineFrame_eq

/-- As much of the stream as comes has the first messages, and nothing else. -/
theorem framesOf_rawStream {got : List UInt8} (hgot : got <+: rawStream ms) (closed : Bool) :
    framesOf (streamLines closed got) <+: ms.filterMap relayedFrame := by
  rw [rawStream_eq] at hgot
  rw [← framesOf_streamTexts hms]
  exact framesOf_cut (streamTexts_isLine hms) hgot closed

theorem framesOf_whole (closed : Bool) :
    framesOf (streamLines closed (rawStream ms)) = ms.filterMap relayedFrame := by
  rw [rawStream_eq, streamLines_all (streamTexts_isLine hms), framesOf_streamTexts hms]

end

/-- A message without a source of its own. -/
def sourceless : RawFrame := ⟨some "2024-01-01T00:00:00.000Z", 3, 127250, 0, 255, [0x0a]⟩

theorem sourceless_relays : Relays sourceless where
  length := by decide
  timestamp := by decide +kernel
  comma := by decide +kernel
  newline := by decide +kernel
  comment := by decide +kernel
  dollar := by decide +kernel
  exclamation := by decide +kernel

end Canboat
