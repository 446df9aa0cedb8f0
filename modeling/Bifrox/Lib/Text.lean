/-
Text as a list of characters, with the operations of Rust's `str` that parsers of
tagged, comma-separated messages use.
-/
import Mathlib.Data.List.DropRight
import Mathlib.Data.List.Infix

abbrev Text : Type := List Char

/-- Named, so that membership in a list of texts is decided through one instance everywhere. -/
instance Text.instLawfulBEq : LawfulBEq Text := inferInstance

namespace Text

open List

/-- `char::is_whitespace`: the code points with the property `White_Space`. -/
def isWhitespace (c : Char) : Bool :=
  (9 ≤ c.toNat && c.toNat ≤ 13) || (0x2000 ≤ c.toNat && c.toNat ≤ 0x200A) ||
    [0x20, 0x85, 0xA0, 0x1680, 0x2028, 0x2029, 0x202F, 0x205F, 0x3000].contains c.toNat

variable (text : Text)

def trim : Text :=
  ((text.dropWhile isWhitespace).reverse.dropWhile isWhitespace).reverse

theorem trim_eq : trim text = (text.dropWhile isWhitespace).rdropWhile isWhitespace :=
  rfl

theorem dropWhile_of_prefix {p : Char → Bool} {l r : Text} (hl : l.dropWhile p = l)
    (hr : r <+: l) : r.dropWhile p = r := by
  rw [dropWhile_eq_self_iff] at hl ⊢
  intro hpos
  rw [hr.getElem]
  exact hl (Nat.lt_of_lt_of_le hpos hr.length_le)

@[simp] theorem trim_trim : trim (trim text) = trim text := by
  have hrest := rdropWhile_prefix isWhitespace (text.dropWhile isWhitespace)
  have hfront := dropWhile_of_prefix (dropWhile_idempotent isWhitespace text) hrest
  rw [trim_eq, trim_eq, hfront, rdropWhile_idempotent]

theorem trim_eq_self {text : Text} (h : ∀ c ∈ text, isWhitespace c = false) : trim text = text := by
  have hfront : text.dropWhile isWhitespace = text := by
    rw [dropWhile_eq_self_iff]
    intro hpos
    rw [h _ (getElem_mem hpos)]
    exact Bool.false_ne_true
  rw [trim_eq, hfront, rdropWhile_eq_self_iff]
  intro hne
  rw [h _ (getLast_mem hne)]
  exact Bool.false_ne_true

/-- `str::to_ascii_uppercase`; Lean's `Char.toUpper` changes ASCII letters only. -/
def asciiUpper : Text := text.map Char.toUpper

def eqIgnoreAsciiCase (left right : Text) : Bool := left.map Char.toLower == right.map Char.toLower

def utf8 : List UInt8 := text.flatMap String.utf8EncodeChar

def ofUtf8 (bytes : List UInt8) : Option Text := bytes.toByteArray.utf8Decode?.map Array.toList

theorem ofUtf8_utf8 : ofUtf8 text.utf8 = some text := by
  show (List.utf8Encode text).utf8Decode?.map Array.toList = some text
  rw [List.utf8Decode?_utf8Encode]
  rfl

theorem utf8_of_ofUtf8 {bytes : List UInt8} {text : Text} (h : ofUtf8 bytes = some text) :
    text.utf8 = bytes := by
  obtain ⟨chars, hchars, rfl⟩ := Option.map_eq_some_iff.mp h
  have hsome := Option.isSome_of_eq_some hchars
  have hget : bytes.toByteArray.utf8Decode?.get hsome = chars := by simp [hchars]
  have hencode := ByteArray.utf8Encode_get_utf8Decode? (h := hsome)
  rw [hget] at hencode
  have hlist := congrArg (fun b : ByteArray => b.data.toList) hencode
  simpa [List.utf8Encode, utf8] using hlist

/-- The text from the first occurrence of a tag on. -/
def fromFirst (tag : Text) : Text → Option Text
  | [] => if tag = [] then some [] else none
  | c :: rest => if tag <+: c :: rest then some (c :: rest) else fromFirst tag rest

/-- What follows the tag in the last of the comma-separated parts that starts with
it.  A loop over the parts that overwrites a variable ends with this value. -/
def lastTagged (tag text : Text) : Option Text :=
  ((text.splitOn ',').filterMap tag.isPrefixOf?).getLast?

section Contains

variable {tag left right : Text} {c : Char}

/-- A tag does not reach across a character it does not have. -/
theorem tag_prefix_append (hc : c ∉ tag) : tag <+: left ++ c :: right ↔ tag <+: left := by
  induction left generalizing tag with
  | nil =>
    cases tag with
    | nil => simp
    | cons d tag =>
      rw [nil_append, cons_prefix_cons]
      constructor
      · rintro ⟨rfl, -⟩
        exact absurd (mem_cons_self ..) hc
      · intro h
        exact absurd (prefix_nil.mp h) (cons_ne_nil d tag)
  | cons e left ih =>
    cases tag with
    | nil => simp
    | cons d =>
      rw [cons_append, cons_prefix_cons, cons_prefix_cons, ih (fun h => hc (mem_cons_of_mem d h))]

theorem tag_infix_append (hc : c ∉ tag) :
    tag <:+: left ++ c :: right ↔ tag <:+: left ∨ tag <:+: right := by
  induction left with
  | nil =>
    rw [nil_append, infix_cons_iff, ← nil_append (c :: right),
      tag_prefix_append hc, infix_nil, prefix_nil]
  | cons e left ih =>
    rw [cons_append, infix_cons_iff, ih, infix_cons_iff, or_assoc,
      ← cons_append, tag_prefix_append hc]

theorem not_infix_of_notMem {x : Char} (hx : x ∈ tag) (h : x ∉ left) : ¬ tag <:+: left :=
  fun hin => h (hin.subset hx)

end Contains

theorem lastTagged_of_notMem {tag text : Text} (h : ',' ∉ text) :
    lastTagged tag text = tag.isPrefixOf? text := by
  rw [lastTagged, splitOn_eq_singleton h]
  cases hp : tag.isPrefixOf? text <;> simp [hp]

/-- A comma separates: the parts after it are looked at first. -/
theorem lastTagged_append_comma (tag left right : Text) :
    lastTagged tag (left ++ ',' :: right) = (lastTagged tag right).or (lastTagged tag left) := by
  rw [lastTagged, splitOn_append_cons_self, filterMap_append, List.getLast?_append]
  rfl

theorem notMem_of_mem_splitOn {c : Char} {text part : Text} (h : part ∈ text.splitOn c) :
    c ∉ part := by
  induction text generalizing part with
  | nil =>
    rw [splitOn_nil, mem_singleton] at h
    simp [h]
  | cons d text ih =>
    rw [splitOn_cons_eq_if_modifyHead] at h
    by_cases hd : d = c
    · rw [if_pos (beq_iff_eq.mpr hd), mem_cons] at h
      rcases h with rfl | h
      · simp
      · exact ih h
    · rw [if_neg (by simpa using hd)] at h
      cases hsplit : text.splitOn c with
      | nil => exact absurd hsplit (splitOn_ne_nil c text)
      | cons =>
        rw [hsplit] at h ih
        rcases mem_cons.mp h with rfl | h
        · have := ih (mem_cons_self ..)
          simp [this, Ne.symm hd]
        · exact ih (mem_cons_of_mem _ h)

theorem comma_notMem_of_lastTagged {tag text value : Text} (h : lastTagged tag text = some value) :
    ',' ∉ value := by
  have hmem := mem_of_getLast? h
  obtain ⟨part, hpart, htag⟩ := mem_filterMap.mp hmem
  rw [List.isPrefixOf?_eq_some_iff_append_eq] at htag
  intro hcomma
  exact notMem_of_mem_splitOn hpart (htag ▸ mem_append_right tag hcomma)

end Text
