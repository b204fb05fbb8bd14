import Canboat.Lib.Json.Grammar

/-!
# Searching a text for a key

A reader that does not parse looks for a quoted key with a colon after it, wherever in the text
that is. In what a writer emits such an occurrence is a member: no string holds one, since a
quote within a string follows a backslash.
-/

namespace Json

/-- What follows the first occurrence. -/
def after? (needle : List Char) : List Char → Option (List Char)
  | [] => none
  | c :: s =>
      if needle.isPrefixOf (c :: s) then some ((c :: s).drop needle.length) else after? needle s

/-- What follows the first `"key":`. -/
def afterKey? (key s : List Char) : Option (List Char) := after? ('"' :: (key ++ ['"', ':'])) s

theorem after?_length_le {needle s t : List Char} (h : after? needle s = some t) :
    t.length + needle.length ≤ s.length ∨ needle = [] := by
  induction s with
  | nil => cases h
  | cons c s ih =>
      rw [after?] at h
      split at h
      · rename_i hpre
        cases h
        have hle := (List.isPrefixOf_iff_prefix.mp hpre).length_le
        rw [List.length_drop]
        omega
      · rw [List.length_cons]
        rcases ih h with hle | hnil
        · omega
        · exact Or.inr hnil

theorem afterKey?_length_lt {key s t : List Char} (h : afterKey? key s = some t) :
    t.length < s.length := by
  rcases after?_length_le h with hle | hnil
  · rw [List.length_cons] at hle
    omega
  · cases hnil

/-! ## Keys and texts without them -/

/-- A key with no quote or backslash, and no punctuation first. -/
def IsKey : List Char → Prop
  | [] => False
  | c :: key => c ∉ [',', ':', '\x7d', ']'] ∧ ∀ d ∈ c :: key, isPlain d = true

instance : DecidablePred IsKey
  | [] => .isFalse id
  | c :: key =>
      decidable_of_iff (c ∉ [',', ':', '\x7d', ']'] ∧ (c :: key).all isPlain = true)
        (and_congr_right fun _ => List.all_eq_true)

/-- The key is not found in the text, whatever follows it. -/
def Passes (key s : List Char) : Prop := ∀ t, afterKey? key (s ++ t) = afterKey? key t

theorem Passes.nil {key : List Char} : Passes key [] := fun _ => rfl

theorem Passes.append {key s t : List Char} (hs : Passes key s) (ht : Passes key t) :
    Passes key (s ++ t) := by
  intro u
  rw [List.append_assoc, hs, ht]

theorem passes_cons {key : List Char} {c : Char} {s : List Char}
    (hc : ∀ t, ¬('"' :: (key ++ ['"', ':'])) <+: c :: (s ++ t)) (hs : Passes key s) :
    Passes key (c :: s) := by
  intro t
  have hpre := hc t
  rw [← List.isPrefixOf_iff_prefix] at hpre
  rw [List.cons_append, afterKey?, after?, if_neg hpre]
  exact hs t

theorem passes_of_noQuote {key s : List Char} (hs : '"' ∉ s) : Passes key s := by
  induction s with
  | nil => exact .nil
  | cons c s ih =>
      refine passes_cons ?_ (ih fun h => hs (List.mem_cons_of_mem _ h))
      intro t h
      exact hs (List.mem_cons.mpr (Or.inl (List.cons_prefix_cons.mp h).1))

theorem isPlain_quote : isPlain '"' = false := rfl

theorem isPlain_backslash : isPlain '\\' = false := rfl

/-- The rest of a string does not begin with the rest of a key, a quote and a colon. -/
theorem not_prefix_chars {key s : List Char} (hs : Chars s) {c : Char} (hc : c ≠ ':')
    (hkey : ∀ d ∈ key, isPlain d = true) (t : List Char) :
    ¬(key ++ ['"', ':']) <+: s ++ '"' :: c :: t := by
  induction hs generalizing key with
  | nil =>
      intro h
      cases key with
      | nil => exact hc (List.cons_prefix_cons.mp (List.cons_prefix_cons.mp h).2).1.symm
      | cons d key =>
          rw [(List.cons_prefix_cons.mp h).1, List.forall_mem_cons] at hkey
          cases hkey.1
  | plain hplain _ ih =>
      intro h
      cases key with
      | nil =>
          rw [← (List.cons_prefix_cons.mp h).1] at hplain
          cases hplain
      | cons d key => exact ih (List.forall_mem_cons.mp hkey).2 (List.cons_prefix_cons.mp h).2
  | escape _ _ _ =>
      intro h
      cases key with
      | nil => cases (List.cons_prefix_cons.mp h).1
      | cons d key =>
          rw [(List.cons_prefix_cons.mp h).1, List.forall_mem_cons] at hkey
          cases hkey.1
  | unicode _ _ _ _ _ _ =>
      intro h
      cases key with
      | nil => cases (List.cons_prefix_cons.mp h).1
      | cons d key =>
          rw [(List.cons_prefix_cons.mp h).1, List.forall_mem_cons] at hkey
          cases hkey.1

/-- A closing quote opens no key. -/
theorem not_prefix_close {key : List Char} (hkey : IsKey key) {c : Char}
    (hc : c ∈ [',', ':', '\x7d', ']']) (t : List Char) :
    ¬('"' :: (key ++ ['"', ':'])) <+: '"' :: c :: t := by
  intro h
  cases key with
  | nil => exact hkey
  | cons d key =>
      have hd := (List.cons_prefix_cons.mp (List.cons_prefix_cons.mp h).2).1
      exact hkey.1 (hd ▸ hc)

theorem IsKey.plain {key : List Char} (hkey : IsKey key) : ∀ d ∈ key, isPlain d = true := by
  cases key with
  | nil => exact hkey.elim
  | cons c key => exact hkey.2

theorem passes_chars {key s : List Char} (hkey : IsKey key) (hs : Chars s) {c : Char}
    (hc : c ∈ [',', '\x7d', ']']) : Passes key (s ++ ['"', c]) := by
  have hmem : c ∈ [',', ':', '\x7d', ']'] := by
    simp only [List.mem_cons, List.not_mem_nil] at hc ⊢
    tauto
  have hcolon : c ≠ ':' := by
    rintro rfl
    exact absurd hc (by decide)
  have hlast : Passes key ['"', c] := by
    refine passes_cons (not_prefix_close hkey hmem) (passes_of_noQuote ?_)
    rw [List.mem_singleton]
    rintro rfl
    exact absurd hc (by decide)
  induction hs with
  | nil => exact hlast
  | plain hplain _ ih =>
      refine passes_cons ?_ ih
      intro t h
      rw [← (List.cons_prefix_cons.mp h).1] at hplain
      cases hplain
  | @escape e s _ hs ih =>
      refine passes_cons ?_ (passes_cons ?_ ih)
      · intro t h
        cases (List.cons_prefix_cons.mp h).1
      · intro t h
        have hrest : key ++ ['"', ':'] <+: (s ++ ['"', c]) ++ t := (List.cons_prefix_cons.mp h).2
        rw [List.append_assoc] at hrest
        exact not_prefix_chars hs hcolon hkey.plain t hrest
  | @unicode a b d e s ha hb hd he hs ih =>
      have hhex : ∀ {c : Char}, isHex c = true → c ≠ '"' := by
        rintro _ h rfl
        cases h
      have hdigits : '"' ∉ ['\\', 'u', a, b, d, e] := by
        simp only [List.mem_cons, List.not_mem_nil, not_or]
        exact ⟨by decide, by decide, (hhex ha).symm, (hhex hb).symm, (hhex hd).symm,
          (hhex he).symm, not_false⟩
      exact (passes_of_noQuote hdigits).append ih

/-- A string, where a value may end. -/
theorem passes_str {key s : List Char} (hkey : IsKey key) (hs : Str s) {c : Char}
    (hc : c ∈ [',', '\x7d', ']']) : Passes key (s ++ [c]) := by
  obtain ⟨hs⟩ := hs
  have hcolon : c ≠ ':' := by
    rintro rfl
    exact absurd hc (by decide)
  rw [List.cons_append, List.append_assoc]
  refine passes_cons ?_ (passes_chars hkey hs hc)
  intro t h
  rw [List.append_assoc] at h
  exact not_prefix_chars hs hcolon hkey.plain t (List.cons_prefix_cons.mp h).2

/-- Of two texts without quotes, each before a quote, one begins with the other only if they are
equal. -/
theorem eq_of_prefix_quote {k key s t : List Char} (hk : '"' ∉ k) (hkey : '"' ∉ key)
    (h : key ++ '"' :: s <+: k ++ '"' :: t) : key = k := by
  induction key generalizing k with
  | nil =>
      cases k with
      | nil => rfl
      | cons c k => exact (hk (List.mem_cons.mpr (Or.inl (List.cons_prefix_cons.mp h).1))).elim
  | cons d key ih =>
      cases k with
      | nil => exact (hkey (List.mem_cons.mpr (Or.inl (List.cons_prefix_cons.mp h).1.symm))).elim
      | cons c k =>
          obtain ⟨rfl, htail⟩ := List.cons_prefix_cons.mp h
          rw [ih (fun hm => hk (List.mem_cons_of_mem _ hm))
            (fun hm => hkey (List.mem_cons_of_mem _ hm)) htail]

theorem noQuote_of_plain {s : List Char} (hs : ∀ d ∈ s, isPlain d = true) : '"' ∉ s := by
  intro h
  cases hs _ h

/-- Another key. -/
theorem passes_key {key k : List Char} (hkey : IsKey key) (hk : ∀ d ∈ k, isPlain d = true)
    (hne : k ≠ key) : Passes key ('"' :: (k ++ ['"', ':'])) := by
  refine passes_cons ?_ ((passes_of_noQuote (noQuote_of_plain hk)).append
    (passes_cons (not_prefix_close hkey (by decide)) (passes_of_noQuote (by decide))))
  intro t h
  rw [List.append_assoc] at h
  exact hne (eq_of_prefix_quote (noQuote_of_plain hk) (noQuote_of_plain hkey.plain)
    (List.cons_prefix_cons.mp h).2).symm

theorem afterKey?_key (key t : List Char) :
    afterKey? key ('"' :: (key ++ '"' :: ':' :: t)) = some t := by
  have hpre : '"' :: (key ++ ['"', ':']) <+: '"' :: (key ++ '"' :: ':' :: t) :=
    ⟨t, by simp⟩
  have hdrop : ('"' :: (key ++ '"' :: ':' :: t)).drop ('"' :: (key ++ ['"', ':'])).length = t := by
    have h := @List.drop_left _ ('"' :: (key ++ ['"', ':'])) t
    rwa [List.cons_append, List.append_assoc] at h
  rw [afterKey?, after?, if_pos (List.isPrefixOf_iff_prefix.mpr hpre), hdrop]

/-! ## Members -/

/-- The text of a value, which ends before a comma or a bracket, does not hold the key. -/
def PassesValue (key v : List Char) : Prop := ∀ c ∈ [',', '\x7d', ']'], Passes key (v ++ [c])

theorem passesValue_of_noQuote {key v : List Char} (hv : '"' ∉ v) : PassesValue key v := by
  intro c hc
  refine passes_of_noQuote ?_
  rw [List.mem_append, not_or, List.mem_singleton]
  refine ⟨hv, ?_⟩
  rintro rfl
  exact absurd hc (by decide)

theorem passesValue_str {key v : List Char} (hkey : IsKey key) (hv : Str v) : PassesValue key v :=
  fun _ hc => passes_str hkey hv hc

/-- What may follow a value, and holds no key. -/
def Follows (key s : List Char) : Prop :=
  ∃ c r, s = c :: r ∧ c ∈ [',', '\x7d'] ∧ Passes key r

theorem Follows.passes {key s : List Char} (hs : Follows key s) : Passes key s := by
  obtain ⟨c, r, rfl, hc, hr⟩ := hs
  have hquote : '"' ∉ [c] := by
    rw [List.mem_singleton]
    rintro rfl
    exact absurd hc (by decide)
  exact (passes_of_noQuote hquote).append hr

theorem PassesValue.append {key v s : List Char} (hv : PassesValue key v) (hs : Follows key s) :
    Passes key (v ++ s) := by
  obtain ⟨c, r, rfl, hc, hr⟩ := hs
  have h := Passes.append (hv c (List.mem_append_left [']'] hc)) hr
  rwa [List.append_assoc] at h

/-- A member and what separates it from what is before it. -/
structure Piece where
  sep : List Char
  key : List Char
  value : List Char
deriving DecidableEq, Repr

def Piece.text (p : Piece) : List Char := p.sep ++ '"' :: (p.key ++ '"' :: ':' :: p.value)

/-- A search goes past the piece, which comes after another. -/
structure Piece.Passed (key : List Char) (p : Piece) : Prop where
  sep : Follows key p.sep
  plain : ∀ d ∈ p.key, isPlain d = true
  ne : p.key ≠ key
  value : PassesValue key p.value

theorem passes_cons_pieces {key k v : List Char} (hkey : IsKey key)
    (hk : ∀ d ∈ k, isPlain d = true) (hne : k ≠ key) (hv : PassesValue key v) (ps : List Piece)
    (hps : ∀ p ∈ ps, p.Passed key) {s : List Char} (hs : Follows key s) :
    Passes key ('"' :: (k ++ '"' :: ':' :: (v ++ (ps.flatMap Piece.text ++ s)))) := by
  have hmember : ∀ {k v r : List Char}, (∀ d ∈ k, isPlain d = true) → k ≠ key →
      Passes key (v ++ r) → Passes key ('"' :: (k ++ '"' :: ':' :: (v ++ r))) := by
    intro k v r hk hne hr
    have h := (passes_key hkey hk hne).append hr
    simpa only [List.cons_append, List.append_assoc, List.nil_append] using h
  apply hmember hk hne
  induction ps generalizing k v with
  | nil => exact hv.append hs
  | cons p ps ih =>
      obtain ⟨hp, hps⟩ := List.forall_mem_cons.mp hps
      have h := (hv.append hp.sep).append (hmember hp.plain hp.ne (ih hp.plain hp.ne hp.value hps))
      simpa only [List.flatMap_cons, Piece.text, List.cons_append, List.append_assoc] using h

/-- An object, by its members. -/
theorem passesValue_object {key k v : List Char} (hkey : IsKey key)
    (hk : ∀ d ∈ k, isPlain d = true) (hne : k ≠ key) (hv : PassesValue key v) (ps : List Piece)
    (hps : ∀ p ∈ ps, p.Passed key) :
    PassesValue key
      ('\x7b' :: '"' :: (k ++ '"' :: ':' :: (v ++ (ps.flatMap Piece.text ++ ['\x7d'])))) := by
  intro c hc
  have hquote : '"' ∉ [c] := by
    rw [List.mem_singleton]
    rintro rfl
    exact absurd hc (by decide)
  have hopen : Passes key ['\x7b'] := passes_of_noQuote (by decide)
  have h := hopen.append
    (passes_cons_pieces hkey hk hne hv ps hps
      (show Follows key ['\x7d', c] from ⟨'\x7d', [c], rfl, by decide, passes_of_noQuote hquote⟩))
  simpa only [List.cons_append, List.append_assoc, List.nil_append] using h

/-- The items of an array. -/
theorem passes_items {key : List Char} (items : List (List Char))
    (hitems : ∀ v ∈ items, PassesValue key v) (hne : items ≠ []) :
    Passes key ([','].intercalate items ++ [']']) := by
  induction items with
  | nil => exact absurd rfl hne
  | cons v items ih =>
      obtain ⟨hv, hitems⟩ := List.forall_mem_cons.mp hitems
      cases items with
      | nil =>
          rw [List.intercalate_singleton]
          exact hv ']' (by decide)
      | cons w items =>
          rw [List.intercalate_cons_of_ne_nil (by simp)]
          have h := Passes.append (hv ',' (by decide)) (ih hitems (by simp))
          simpa only [List.append_assoc] using h

/-- The search finds the first member with the key. -/
theorem afterKey?_pieces {key pre v : List Char} (hkey : IsKey key) (hpre : Passes key pre)
    (ps : List Piece) (hps : ∀ p ∈ ps, p.Passed key) {sep : List Char} (hsep : Follows key sep)
    (k w t : List Char) (hk : ∀ d ∈ k, isPlain d = true) (hne : k ≠ key)
    (hw : PassesValue key w) :
    afterKey? key (pre ++ ('"' :: (k ++ '"' :: ':' :: w) ++
      (ps.flatMap Piece.text ++ (sep ++ '"' :: (key ++ '"' :: ':' :: (v ++ t)))))) =
        some (v ++ t) := by
  have h := passes_cons_pieces hkey hk hne hw ps hps hsep ('"' :: (key ++ '"' :: ':' :: (v ++ t)))
  rw [afterKey?_key] at h
  rw [hpre]
  simpa only [List.cons_append, List.append_assoc] using h

end Json
