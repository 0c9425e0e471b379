import Mathlib.Data.List.Chain
import BlockLang.Token.Scan

/-!
# Texts in pieces

A text may be put together from words, numbers, marks and blanks. Unless a word or number
runs into the next piece, the text is cut into the tokens of its pieces again
(`scan_pieces`).
-/

namespace BlockLang

open Token (Kind)

inductive Piece where
  | word (name : String)
  | number (n : Nat)
  | mark (text : String) (kind : Kind)
  | blank

/-- A letter or an underscore, and then letters, digits and underscores. -/
def IsIdentifier (name : String) : Prop :=
  ∃ c cs, name.toList = c :: cs ∧ Token.Rule.isWordStart c = true ∧
    ∀ d ∈ cs, Token.Rule.isWordPart d = true

namespace Piece

def chars : Piece → List Char
  | word name => name.toList
  | number n => (toString n).toList
  | mark text _ => text.toList
  | blank => [' ']

/-- The kind and the text of the token that a piece is read as. -/
def lexeme? : Piece → Option (Kind × String)
  | word name => some (.ofWord name, name)
  | number n => some (.number, toString n)
  | mark text kind => some (kind, text)
  | blank => none

/-- Marks that no other mark begins with, but for one. -/
def plainMarks : List (String × Kind) :=
  [("[", .openBracket), ("]", .closeBracket), ("(", .openParen), (")", .closeParen),
    ("@", .atSign), (";", .semicolon), (":", .colon), (",", .comma), ("->", .arrow)]

def Plain : Piece → Prop
  | word name => IsIdentifier name
  | mark text kind => (text, kind) ∈ plainMarks
  | _ => True

/-- Whether a piece takes in letters and digits behind it. -/
def runsOn : Piece → Bool
  | word _ | number _ => true
  | _ => false

def isBlank : Piece → Bool
  | blank => true
  | _ => false

/-- `q` may stand right behind `p`. -/
def Meets (p q : Piece) : Prop :=
  (p.runsOn = true → q.runsOn = false) ∧ (p.isBlank = true → q.isBlank = false)

def rule : Piece → Token.Rule
  | word _ => .word
  | number _ => .number
  | mark text kind => .mark text kind
  | blank => .blank

def text (ps : List Piece) : List Char := ps.flatMap chars

def lexemes (ps : List Piece) : List (Kind × String) := ps.filterMap lexeme?

@[simp] theorem lexemes_nil : lexemes [] = [] := rfl

@[simp] theorem lexemes_word (name : String) (ps : List Piece) :
    lexemes (word name :: ps) = (.ofWord name, name) :: lexemes ps := rfl

@[simp] theorem lexemes_number (n : Nat) (ps : List Piece) :
    lexemes (number n :: ps) = (.number, toString n) :: lexemes ps := rfl

@[simp] theorem lexemes_mark (text : String) (kind : Kind) (ps : List Piece) :
    lexemes (mark text kind :: ps) = (kind, text) :: lexemes ps := rfl

@[simp] theorem lexemes_blank (ps : List Piece) : lexemes (blank :: ps) = lexemes ps := rfl

@[simp] theorem lexemes_append (ps qs : List Piece) :
    lexemes (ps ++ qs) = lexemes ps ++ lexemes qs := List.filterMap_append

end Piece

/-- The kind and the text of a token. -/
def Token.lexeme (t : Token) : Kind × String := (t.kind, t.value)

namespace Token

/-! ## One token -/

/-- The rule that applies in front of `rest`. -/
def Cuts (rule : Rule) (text rest : List Char) : Prop :=
  firstRule? (text ++ rest) = some (rule, text.length)

theorem scan_skip (file : String) (offset : Nat) (text rest : List Char) :
    scan file text.length offset (text ++ rest) = scan file 0 (offset + byteLength text) rest := by
  induction text generalizing offset with
  | nil => rfl
  | cons c cs ih =>
    rw [List.length_cons, List.cons_append, scan, ih, byteLength_cons, Nat.add_assoc]

theorem scan_cut {rule : Rule} {text rest : List Char} (h : Cuts rule text rest)
    (hne : text ≠ []) (file : String) (offset : Nat) :
    scan file 0 offset (text ++ rest) =
      match rule.make text with
      | none => scan file 0 (offset + byteLength text) rest
      | some (kind, value) =>
        (scan file 0 (offset + byteLength text) rest).map
          (⟨kind, value, .ofBytes offset (offset + byteLength text) file⟩ :: ·) := by
  obtain ⟨c, cs, rfl⟩ := List.exists_cons_of_ne_nil hne
  have hskip : scan file ((c :: cs).length - 1) (offset + c.utf8Size) (cs ++ rest) =
      scan file 0 (offset + byteLength (c :: cs)) rest := by
    rw [byteLength_cons, ← Nat.add_assoc]
    exact scan_skip file (offset + c.utf8Size) cs rest
  have hrule : firstRule? (c :: (cs ++ rest)) = some (rule, (c :: cs).length) := h
  have htake : (c :: (cs ++ rest)).take (c :: cs).length = c :: cs := by simp
  rw [List.cons_append, scan]
  cases hmake : rule.make (c :: cs) with
  | none => simp only [hrule, htake, hmake, hskip]
  | some lexeme => simp only [hrule, htake, hmake, hskip]

namespace Rule

/-- The characters that `p` takes end where `text` does. -/
theorem takeWhile_append_eq {p : Char → Bool} {text rest : List Char}
    (htext : ∀ c ∈ text, p c = true) (hrest : ∀ c ∈ rest.head?, p c = false) :
    (text ++ rest).takeWhile p = text := by
  rw [List.takeWhile_append_of_pos htext]
  cases rest with
  | nil => simp
  | cons c cs => simp [hrest c rfl]

end Rule

/-- The first rule that takes any characters decides. -/
theorem firstRule?_of_split (before : List Rule) {after : List Rule} {rule : Rule}
    {cs : List Char} (hrules : rules = before ++ rule :: after)
    (hbefore : ∀ r ∈ before, r.length cs = 0) (hne : rule.length cs ≠ 0) :
    firstRule? cs = some (rule, rule.length cs) := by
  have hnone : before.findSome? (fun rule =>
      let n := rule.length cs
      if n = 0 then none else some (rule, n)) = none :=
    List.findSome?_eq_none_iff.mpr fun r hr => if_pos (hbefore r hr)
  rw [firstRule?, hrules, List.findSome?_append, hnone, List.findSome?_cons]
  simp only [hne, if_false, Option.none_or]

theorem cuts_word {name : String} {rest : List Char} (h : IsIdentifier name)
    (hrest : ∀ c ∈ rest.head?, Rule.isWordPart c = false) : Cuts .word name.toList rest := by
  obtain ⟨c, cs, hname, hstart, hpart⟩ := h
  have hlength : Rule.word.length (c :: cs ++ rest) = (c :: cs).length := by
    show Rule.wordLength (c :: (cs ++ rest)) = _
    rw [Rule.wordLength, if_pos hstart, Rule.takeWhile_append_eq hpart hrest, List.length_cons,
      Nat.add_comm]
  rw [Cuts, hname, ← hlength]
  refine firstRule?_of_split [] rfl (by simp) ?_
  rw [hlength]
  exact Nat.succ_ne_zero _

theorem isAlpha_eq_true_iff {c : Char} :
    c.isAlpha = true ↔ 65 ≤ c.toNat ∧ c.toNat ≤ 90 ∨ 97 ≤ c.toNat ∧ c.toNat ≤ 122 := by
  have halpha : c.isAlpha = (decide (c.val ≥ 65 ∧ c.val ≤ 90) ||
      (decide (c.val ≥ 97) && decide (c.val ≤ 122))) := rfl
  simp only [halpha, Bool.or_eq_true, Bool.and_eq_true, decide_eq_true_eq, ge_iff_le,
    UInt32.le_iff_toNat_le]
  rfl

theorem isDigit_eq_true_iff {c : Char} : c.isDigit = true ↔ 48 ≤ c.toNat ∧ c.toNat ≤ 57 := by
  have hdigit : c.isDigit = (decide (c.val ≥ 48) && decide (c.val ≤ 57)) := rfl
  simp only [hdigit, Bool.and_eq_true, decide_eq_true_eq, ge_iff_le, UInt32.le_iff_toNat_le]
  rfl

theorem isWordStart_of_isDigit {c : Char} (h : c.isDigit = true) : Rule.isWordStart c = false := by
  have hne : c ≠ '_' := by
    rintro rfl
    exact absurd h (by decide)
  have halpha : c.isAlpha = false := by
    rw [isDigit_eq_true_iff] at h
    rw [← Bool.not_eq_true, isAlpha_eq_true_iff]
    omega
  rw [Rule.isWordStart, halpha, beq_eq_false_iff_ne.mpr hne]
  rfl

/-- Digits are a number of their own unless a point and digits follow. -/
theorem cuts_digits {text rest : List Char} (hne : text ≠ [])
    (htext : ∀ c ∈ text, c.isDigit = true) (hrest : ∀ c ∈ rest.head?, c.isDigit = false)
    (hpoint : ∀ more, rest = '.' :: more → Rule.digitsLength more = 0) :
    Cuts .number text rest := by
  have hlength : Rule.number.length (text ++ rest) = text.length := by
    show ((text ++ rest).takeWhile Char.isDigit).length = _
    rw [Rule.takeWhile_append_eq htext hrest]
  have hword : Rule.word.length (text ++ rest) = 0 := by
    obtain ⟨c, cs, rfl⟩ := List.exists_cons_of_ne_nil hne
    show Rule.wordLength (c :: (cs ++ rest)) = 0
    rw [Rule.wordLength, isWordStart_of_isDigit (htext c List.mem_cons_self), if_neg nofun]
  have hfloat : Rule.float.length (text ++ rest) = 0 := by
    show Rule.floatLength (text ++ rest) = 0
    have hdigits : Rule.digitsLength (text ++ rest) = text.length := hlength
    rw [Rule.floatLength, hdigits, List.drop_left]
    dsimp only
    split
    · exact if_pos (.inr (hpoint _ rfl))
    · rfl
  rw [Cuts, ← hlength]
  refine firstRule?_of_split [.word, .float] rfl (fun r hr => ?_) ?_
  · rcases List.mem_cons.mp hr with rfl | hr
    · exact hword
    · rw [List.mem_singleton.mp hr]
      exact hfloat
  · rw [hlength]
    exact fun h => hne (List.length_eq_zero_iff.mp h)

theorem cuts_number {text rest : List Char} (hne : text ≠ [])
    (htext : ∀ c ∈ text, c.isDigit = true)
    (hrest : ∀ c ∈ rest.head?, c.isDigit = false ∧ c ≠ '.') : Cuts .number text rest := by
  refine cuts_digits hne htext (fun c hc => (hrest c hc).1) ?_
  rintro more rfl
  exact absurd rfl (hrest '.' rfl).2

theorem cuts_blanks (n : Nat) {rest : List Char}
    (hrest : ∀ c ∈ rest.head?, Text.isBlank c = false) :
    Cuts .blank (.replicate (n + 1) ' ') rest := by
  have hblank : ∀ c ∈ List.replicate (n + 1) ' ', Text.isBlank c = true := fun c hc =>
    List.eq_of_mem_replicate hc ▸ rfl
  have hlength : Rule.blank.length (.replicate (n + 1) ' ' ++ rest) = n + 1 := by
    show ((.replicate (n + 1) ' ' ++ rest).takeWhile Text.isBlank).length = _
    rw [Rule.takeWhile_append_eq hblank hrest, List.length_replicate]
  have hothers : [Rule.word, .float, .number].all
      (fun r => r.length (.replicate (n + 1) ' ' ++ rest) == 0) = true := rfl
  rw [Cuts, List.length_replicate]
  refine (firstRule?_of_split [.word, .float, .number] rfl (fun r hr => ?_) ?_).trans ?_
  · exact beq_iff_eq.mp (List.all_eq_true.mp hothers r hr)
  · rw [hlength]
    exact Nat.succ_ne_zero n
  · rw [hlength]

theorem cuts_blank {rest : List Char} (hrest : ∀ c ∈ rest.head?, Text.isBlank c = false) :
    Cuts .blank [' '] rest := cuts_blanks 0 hrest

theorem cuts_atSign {rest : List Char} (hrest : ∀ c ∈ rest.head?, c ≠ '=') :
    Cuts (.mark "@" .atSign) ['@'] rest := by
  have hlonger : (Rule.mark "@=" .atEquals).length (['@'] ++ rest) = 0 := by
    cases rest with
    | nil => rfl
    | cons c cs =>
      have hne : ('=' == c) = false := beq_eq_false_iff_ne.mpr (hrest c rfl).symm
      show (if ('@' == '@' && ('=' == c && true)) = true then 2 else 0) = 0
      simp [hne]
  have hothers : (rules.take 16).all (fun r => r.length (['@'] ++ rest) == 0) = true := rfl
  refine firstRule?_of_split (rules.take 16 ++ [.mark "@=" .atEquals]) rfl (fun r hr => ?_) nofun
  rcases List.mem_append.mp hr with hr | hr
  · exact beq_iff_eq.mp (List.all_eq_true.mp hothers r hr)
  · rw [List.mem_singleton.mp hr]
    exact hlonger

theorem cuts_mark {text : String} {kind : Kind} {rest : List Char}
    (h : (text, kind) ∈ Piece.plainMarks) (hrest : ∀ c ∈ rest.head?, c ≠ '=') :
    Cuts (.mark text kind) text.toList rest := by
  simp only [Piece.plainMarks, List.mem_cons, Prod.mk.injEq, List.not_mem_nil, or_false] at h
  rcases h with ⟨rfl, rfl⟩ | ⟨rfl, rfl⟩ | ⟨rfl, rfl⟩ | ⟨rfl, rfl⟩ | ⟨rfl, rfl⟩ | ⟨rfl, rfl⟩ |
    ⟨rfl, rfl⟩ | ⟨rfl, rfl⟩ | ⟨rfl, rfl⟩
  case inr.inr.inr.inr.inl => exact cuts_atSign hrest
  all_goals rfl

end Token

/-! ## Many tokens -/

namespace Piece

open Token.Rule (isWordPart isWordStart)

/-- What the first character `c` of a piece tells: it does not lengthen a mark, it ends what
runs on unless the piece does so too, and it ends blanks unless the piece is one. -/
structure Opens (p : Piece) (c : Char) : Prop where
  notEquals : c ≠ '='
  ends : p.runsOn = false → isWordPart c = false ∧ c ≠ '.'
  blank : p.isBlank = false → Text.isBlank c = false

theorem isWordPart_of_isDigit {c : Char} (h : c.isDigit = true) : isWordPart c = true := by
  simp [isWordPart, h]

theorem isWordPart_of_isWordStart {c : Char} (h : isWordStart c = true) : isWordPart c = true := by
  simp only [isWordStart, isWordPart, Bool.or_eq_true] at h ⊢
  exact h.imp_left .inl

theorem toNat_of_isWordPart {c : Char} (h : isWordPart c = true) :
    48 ≤ c.toNat ∧ c.toNat ≤ 122 := by
  rw [isWordPart, Bool.or_eq_true, Bool.or_eq_true, Token.isAlpha_eq_true_iff,
    Token.isDigit_eq_true_iff, beq_iff_eq] at h
  rcases h with (h | h) | rfl
  · omega
  · omega
  · decide

theorem isBlank_of_isWordPart {c : Char} (h : isWordPart c = true) : Text.isBlank c = false := by
  have hrange := toNat_of_isWordPart h
  simp only [Text.isBlank, Bool.or_eq_false_iff, Bool.and_eq_false_iff, decide_eq_false_iff_not,
    beq_eq_false_iff_ne]
  omega

/-- What runs on starts with a part of a word. -/
theorem opens_of_isWordPart {p : Piece} {c : Char} (hp : p.runsOn = true)
    (hc : isWordPart c = true) : p.Opens c := by
  refine ⟨?_, fun hends => absurd hends (by simp [hp]), fun _ => isBlank_of_isWordPart hc⟩
  rintro rfl
  exact absurd hc (by decide)

theorem isDigit_of_mem_toString {n : Nat} {c : Char} (h : c ∈ (toString n).toList) :
    c.isDigit = true := by
  rw [Nat.toString_eq_repr, Nat.toList_repr] at h
  exact Nat.isDigit_of_mem_toDigits (by decide) (by decide) h

theorem toString_ne_nil (n : Nat) : (toString n).toList ≠ [] := by
  rw [Nat.toString_eq_repr, Nat.toList_repr]
  exact Nat.toDigits_ne_nil

theorem Plain.exists_opens {p : Piece} (h : p.Plain) :
    ∃ c cs, p.chars = c :: cs ∧ p.Opens c := by
  cases p with
  | word name =>
    obtain ⟨c, cs, hname, hstart, -⟩ := h
    exact ⟨c, cs, hname, opens_of_isWordPart rfl (isWordPart_of_isWordStart hstart)⟩
  | number n =>
    obtain ⟨c, cs, hn⟩ := List.exists_cons_of_ne_nil (toString_ne_nil n)
    have hdigit : c.isDigit = true := isDigit_of_mem_toString (hn ▸ List.mem_cons_self)
    exact ⟨c, cs, hn, opens_of_isWordPart rfl (isWordPart_of_isDigit hdigit)⟩
  | mark text kind =>
    have hmarks : ∀ m ∈ plainMarks, m.1.toList.head?.any (fun c =>
        c ≠ '=' ∧ isWordPart c = false ∧ c ≠ '.' ∧ Text.isBlank c = false) = true := by decide
    obtain ⟨c, hc, hopens⟩ := (Option.any_eq_true _ _).mp (hmarks _ h)
    obtain ⟨hne, hpart, hpoint, hblank⟩ := of_decide_eq_true hopens
    obtain ⟨cs, hcs⟩ := List.head?_eq_some_iff.mp hc
    exact ⟨c, cs, hcs, hne, fun _ => ⟨hpart, hpoint⟩, fun _ => hblank⟩
  | blank => exact ⟨' ', [], rfl, by decide, fun _ => by decide, nofun⟩

/-- What comes behind `p` does not belong to it. -/
theorem Plain.cuts {p : Piece} {rest : List Char} (h : p.Plain)
    (hrest : ∀ c ∈ rest.head?, ∃ q, p.Meets q ∧ q.Opens c) : Token.Cuts p.rule p.chars rest := by
  cases p with
  | word name =>
    refine Token.cuts_word h fun c hc => ?_
    obtain ⟨q, hmeets, hopens⟩ := hrest c hc
    exact (hopens.ends (hmeets.1 rfl)).1
  | number n =>
    refine Token.cuts_number (toString_ne_nil n) (fun c => isDigit_of_mem_toString) fun c hc => ?_
    obtain ⟨q, hmeets, hopens⟩ := hrest c hc
    obtain ⟨hpart, hpoint⟩ := hopens.ends (hmeets.1 rfl)
    exact ⟨Bool.eq_false_iff.mpr fun hd => by simp [isWordPart_of_isDigit hd] at hpart, hpoint⟩
  | mark text kind =>
    refine Token.cuts_mark h fun c hc => ?_
    obtain ⟨q, -, hopens⟩ := hrest c hc
    exact hopens.notEquals
  | blank =>
    refine Token.cuts_blank fun c hc => ?_
    obtain ⟨q, hmeets, hopens⟩ := hrest c hc
    exact hopens.blank (hmeets.2 rfl)

theorem make_rule (p : Piece) : p.rule.make p.chars = p.lexeme? := by
  cases p with
  | word name => simp only [rule, chars, lexeme?, Token.Rule.word, String.ofList_toList]
  | number n => simp only [rule, chars, lexeme?, Token.Rule.number, String.ofList_toList]
  | mark text kind => rfl
  | blank => rfl

end Piece

/-- A text is cut into the tokens of its pieces. -/
theorem scan_pieces (file : String) (offset : Nat) {ps : List Piece} (h : ∀ p ∈ ps, p.Plain)
    (hmeets : ps.IsChain Piece.Meets) :
    ∃ tokens last, Token.scan file 0 offset (Piece.text ps) = .ok (tokens ++ [last]) ∧
      tokens.map Token.lexeme = Piece.lexemes ps ∧ last.kind = .eof := by
  induction ps generalizing offset with
  | nil => exact ⟨[], _, rfl, rfl, rfl⟩
  | cons p ps ih =>
    have hp := h p List.mem_cons_self
    obtain ⟨c, cs, hchars, -⟩ := hp.exists_opens
    have hrest : ∀ c ∈ (Piece.text ps).head?, ∃ q, p.Meets q ∧ q.Opens c := by
      intro c hc
      cases ps with
      | nil => simp [Piece.text] at hc
      | cons q qs =>
        obtain ⟨d, ds, hq, hopens⟩ := (h q (by simp)).exists_opens
        obtain rfl : d = c := by simpa [Piece.text, hq] using hc
        exact ⟨q, (List.isChain_cons_cons.mp hmeets).1, hopens⟩
    obtain ⟨tokens, last, hscan, hlexemes, hlast⟩ := ih (offset + byteLength p.chars)
      (fun q hq => h q (List.mem_cons_of_mem _ hq)) hmeets.tail
    have hcut := Token.scan_cut (hp.cuts hrest) (by simp [hchars]) file offset
    rw [Piece.make_rule, hscan] at hcut
    rw [Piece.text, List.flatMap_cons]
    cases hlexeme : p.lexeme? with
    | none =>
      rw [hlexeme] at hcut
      refine ⟨tokens, last, hcut, ?_, hlast⟩
      rw [hlexemes, Piece.lexemes, Piece.lexemes, List.filterMap_cons_none hlexeme]
    | some lexeme =>
      rw [hlexeme] at hcut
      refine ⟨_ :: tokens, last, hcut, ?_, hlast⟩
      rw [List.map_cons, hlexemes, Piece.lexemes, Piece.lexemes, List.filterMap_cons_some hlexeme]
      rfl

end BlockLang
