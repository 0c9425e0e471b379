import BlockLang.Proofs.Source.Bytes
import BlockLang.Proofs.Token.Pieces
import BlockLang.Proofs.Token.Word

/-!
# Tokens tile their text

Although the rules are tried in order and not by length, the first one that applies takes
the most (`rules_pairwise`). A text is therefore laid out without holes in tokens, runs of
white space and comments, each as long as the rules allow (`Tiles`), up to its end or to
the first character that no rule takes.
-/

namespace BlockLang

namespace Token

-- ---------------------------------------------------------------------------
-- The first rule takes the most
-- ---------------------------------------------------------------------------

namespace Rule

/-- Where `a` applies, `b` takes no more than `a`. -/
def Outreaches (a b : Rule) : Prop := ∀ cs, a.length cs ≠ 0 → b.length cs ≤ a.length cs

/-- The rule applies only in front of a character with `p`. -/
def StartsWith (r : Rule) (p : Char → Bool) : Prop :=
  ∀ cs, r.length cs ≠ 0 → ∃ c rest, cs = c :: rest ∧ p c = true

theorem StartsWith.outreaches {a b : Rule} {p q : Char → Bool} (ha : a.StartsWith p)
    (hb : b.StartsWith q) (hpq : ∀ c, p c = true → q c = false) : a.Outreaches b := by
  intro cs hne
  obtain ⟨c, rest, rfl, hc⟩ := ha cs hne
  have hzero : b.length (c :: rest) = 0 := by
    by_contra hb'
    obtain ⟨d, rest', hcons, hd⟩ := hb _ hb'
    obtain ⟨rfl, -⟩ := List.cons.inj hcons
    rw [hpq c hc] at hd
    cases hd
  rw [hzero]
  exact Nat.zero_le _

theorem StartsWith.outreaches_of_eq_false {a b : Rule} {p : Char → Bool} {d : Char}
    (ha : a.StartsWith p) (hb : b.StartsWith (· == d)) (hd : p d = false) : a.Outreaches b := by
  refine ha.outreaches hb fun c hc => beq_eq_false_iff_ne.mpr ?_
  rintro rfl
  rw [hd] at hc
  cases hc

theorem word_startsWith : word.StartsWith isWordStart := by
  intro cs hne
  cases cs with
  | nil => exact absurd rfl hne
  | cons c rest =>
    refine ⟨c, rest, rfl, ?_⟩
    by_contra hc
    exact hne (if_neg hc)

theorem digitsLength_startsWith {cs : List Char} (h : digitsLength cs ≠ 0) :
    ∃ c rest, cs = c :: rest ∧ c.isDigit = true := by
  cases cs with
  | nil => exact absurd rfl h
  | cons c rest =>
    refine ⟨c, rest, rfl, ?_⟩
    by_contra hc
    rw [digitsLength, List.takeWhile_cons_of_neg hc] at h
    exact h rfl

theorem number_startsWith : number.StartsWith Char.isDigit := fun _ => digitsLength_startsWith

/-- A float takes its digits and more. -/
theorem digitsLength_of_floatLength {cs : List Char} (h : floatLength cs ≠ 0) :
    digitsLength cs ≠ 0 ∧ digitsLength cs ≤ floatLength cs := by
  unfold floatLength at h ⊢
  dsimp only at h ⊢
  split at h
  · split at h
    · exact absurd rfl h
    · next hparts =>
      rw [if_neg hparts]
      omega
  · exact absurd rfl h

theorem float_startsWith : float.StartsWith Char.isDigit :=
  fun _ h => digitsLength_startsWith (digitsLength_of_floatLength h).1

theorem float_outreaches_number : float.Outreaches number :=
  fun _ h => (digitsLength_of_floatLength h).2

theorem blank_startsWith : blank.StartsWith Text.isBlank := by
  intro cs hne
  cases cs with
  | nil => exact absurd rfl hne
  | cons c rest =>
    refine ⟨c, rest, rfl, ?_⟩
    by_contra hc
    refine hne ?_
    show ((c :: rest).takeWhile Text.isBlank).length = 0
    rw [List.takeWhile_cons_of_neg hc, List.length_nil]

theorem string_startsWith : string.StartsWith (· == '"') := by
  intro cs hne
  change stringLength cs ≠ 0 at hne
  unfold stringLength at hne
  split at hne
  · exact ⟨_, _, rfl, rfl⟩
  · exact absurd rfl hne

theorem exists_of_commentLength {cs : List Char} (h : commentLength cs ≠ 0) :
    ∃ rest, cs = '/' :: '/' :: rest ∧
      commentLength cs = 2 + (rest.takeWhile (· ≠ '\n')).length := by
  unfold commentLength at h ⊢
  split at h
  · exact ⟨_, rfl, rfl⟩
  · exact absurd rfl h

theorem comment_startsWith : comment.StartsWith (· == '/') := by
  intro cs hne
  obtain ⟨rest, rfl, -⟩ := exists_of_commentLength hne
  exact ⟨_, _, rfl, rfl⟩

theorem isPrefix_of_mark_length {text : String} {kind : Kind} {cs : List Char}
    (h : (mark text kind).length cs ≠ 0) :
    text.toList <+: cs ∧ (mark text kind).length cs = text.toList.length := by
  simp only [mark] at h ⊢
  split at h
  · next hfront =>
    rw [if_pos hfront]
    exact ⟨List.isPrefixOf_iff_prefix.mp hfront, String.length_toList.symm⟩
  · exact absurd rfl h

theorem mark_startsWith {m : String × Kind} (hm : m ∈ marks) :
    (mark m.1 m.2).StartsWith (m.1.toList.head? == some ·) := by
  intro cs hne
  obtain ⟨⟨rest, rfl⟩, -⟩ := isPrefix_of_mark_length hne
  have hmarks : ∀ m ∈ marks, m.1.toList ≠ [] := by decide
  obtain ⟨c, text, htext⟩ := List.exists_cons_of_ne_nil (hmarks m hm)
  refine ⟨c, text ++ rest, ?_, ?_⟩
  · rw [htext, List.cons_append]
  · simp only [htext, List.head?_cons, beq_self_eq_true]

theorem StartsWith.outreaches_mark {a : Rule} {p : Char → Bool} (ha : a.StartsWith p)
    (hp : ∀ m ∈ marks, m.1.toList.head?.all (!p ·) = true) {m : String × Kind}
    (hm : m ∈ marks) : a.Outreaches (mark m.1 m.2) := by
  refine ha.outreaches (mark_startsWith hm) fun c hc => beq_eq_false_iff_ne.mpr fun hhead => ?_
  have hnot := hp m hm
  rw [hhead, Option.all_some, hc] at hnot
  cases hnot

theorem comment_outreaches_mark {m : String × Kind} (hm : m ∈ marks) :
    comment.Outreaches (mark m.1 m.2) := by
  intro cs hne
  by_cases hmark : (mark m.1 m.2).length cs = 0
  · rw [hmark]
    exact Nat.zero_le _
  · obtain ⟨-, hlength⟩ := isPrefix_of_mark_length hmark
    obtain ⟨rest, rfl, hcomment⟩ := exists_of_commentLength hne
    have hshort : ∀ m ∈ marks, m.1.toList.length ≤ 2 := by decide
    calc (mark m.1 m.2).length ('/' :: '/' :: rest) = m.1.toList.length := hlength
      _ ≤ 2 := hshort m hm
      _ ≤ 2 + (rest.takeWhile (· ≠ '\n')).length := Nat.le_add_right _ _
      _ = comment.length ('/' :: '/' :: rest) := hcomment.symm

theorem mark_outreaches_mark {m n : String × Kind}
    (h : m.1.toList <+: n.1.toList → n.1.toList.length ≤ m.1.toList.length) :
    (mark m.1 m.2).Outreaches (mark n.1 n.2) := by
  intro cs hne
  by_cases hmark : (mark n.1 n.2).length cs = 0
  · rw [hmark]
    exact Nat.zero_le _
  · obtain ⟨hm, hmlength⟩ := isPrefix_of_mark_length hne
    obtain ⟨hn, hnlength⟩ := isPrefix_of_mark_length hmark
    rw [hmlength, hnlength]
    by_contra hlonger
    exact hlonger (h (List.prefix_of_prefix_length_le hm hn (by omega)))

end Rule

theorem plainRules_pairwise :
    [Rule.word, .float, .number, .blank, .string, .comment].Pairwise Rule.Outreaches := by
  have hdigit (c : Char) (hc : Rule.isWordStart c = true) : c.isDigit = false := by
    by_contra h
    rw [isWordStart_of_isDigit (Bool.not_eq_false _ ▸ h)] at hc
    cases hc
  have hword (c : Char) (hc : Rule.isWordStart c = true) : Text.isBlank c = false :=
    Piece.isBlank_of_isWordPart (Piece.isWordPart_of_isWordStart hc)
  have hnumber (c : Char) (hc : c.isDigit = true) : Text.isBlank c = false :=
    Piece.isBlank_of_isWordPart (Piece.isWordPart_of_isDigit hc)
  have hstring {a : Rule} {p : Char → Bool} (ha : a.StartsWith p) (h : p '"' = false) :=
    ha.outreaches_of_eq_false Rule.string_startsWith h
  have hcomment {a : Rule} {p : Char → Bool} (ha : a.StartsWith p) (h : p '/' = false) :=
    ha.outreaches_of_eq_false Rule.comment_startsWith h
  simp only [List.pairwise_cons, List.forall_mem_cons, List.not_mem_nil, false_implies,
    implies_true, and_true, List.Pairwise.nil]
  refine ⟨⟨?_, ?_, ?_, ?_, ?_⟩, ⟨?_, ?_, ?_, ?_⟩, ⟨?_, ?_, ?_⟩, ⟨?_, ?_⟩, ?_⟩
  · exact Rule.word_startsWith.outreaches Rule.float_startsWith hdigit
  · exact Rule.word_startsWith.outreaches Rule.number_startsWith hdigit
  · exact Rule.word_startsWith.outreaches Rule.blank_startsWith hword
  · exact hstring Rule.word_startsWith rfl
  · exact hcomment Rule.word_startsWith rfl
  · exact Rule.float_outreaches_number
  · exact Rule.float_startsWith.outreaches Rule.blank_startsWith hnumber
  · exact hstring Rule.float_startsWith rfl
  · exact hcomment Rule.float_startsWith rfl
  · exact Rule.number_startsWith.outreaches Rule.blank_startsWith hnumber
  · exact hstring Rule.number_startsWith rfl
  · exact hcomment Rule.number_startsWith rfl
  · exact hstring Rule.blank_startsWith rfl
  · exact hcomment Rule.blank_startsWith rfl
  · exact hcomment Rule.string_startsWith rfl

/-- Where a rule applies, no rule behind it takes more. -/
theorem rules_pairwise : rules.Pairwise Rule.Outreaches := by
  refine List.pairwise_append.mpr ⟨plainRules_pairwise, ?_, ?_⟩
  · -- A mark stands before its own beginnings.
    have hmarks : marks.Pairwise fun m n =>
        m.1.toList <+: n.1.toList → n.1.toList.length ≤ m.1.toList.length := by decide
    exact List.pairwise_map.mpr (hmarks.imp Rule.mark_outreaches_mark)
  · simp only [List.forall_mem_cons, List.forall_mem_map, List.not_mem_nil, false_implies,
      implies_true, and_true]
    refine ⟨?_, ?_, ?_, ?_, ?_, ?_⟩
    · exact fun m => Rule.word_startsWith.outreaches_mark (by decide)
    · exact fun m => Rule.float_startsWith.outreaches_mark (by decide)
    · exact fun m => Rule.number_startsWith.outreaches_mark (by decide)
    · exact fun m => Rule.blank_startsWith.outreaches_mark (by decide)
    · exact fun m => Rule.string_startsWith.outreaches_mark (by decide)
    · exact fun m => Rule.comment_outreaches_mark

theorem length_le_of_firstRule? {rule : Rule} {cs : List Char} {n : Nat}
    (h : firstRule? cs = some (rule, n)) : ∀ r ∈ rules, r.length cs ≤ n := by
  obtain ⟨before, first, after, hrules, hfirst, hbefore⟩ := List.findSome?_eq_some_iff.mp h
  obtain ⟨-, rfl, hne⟩ := firstRule?_eq_some h
  have hpairwise := rules_pairwise
  rw [hrules] at hpairwise ⊢
  obtain ⟨-, hafter, -⟩ := List.pairwise_append.mp hpairwise
  obtain rfl : first = rule := by
    dsimp only at hfirst
    split at hfirst
    · cases hfirst
    · exact (Prod.mk.inj (Option.some.inj hfirst)).1
  intro r hr
  rcases List.mem_append.mp hr with hr | hr
  · have hzero : r.length cs = 0 := by simpa using hbefore r hr
    rw [hzero]
    exact Nat.zero_le _
  · rcases List.mem_cons.mp hr with rfl | hr
    · exact Nat.le_refl _
    · exact List.rel_of_pairwise_cons hafter hr cs hne

-- ---------------------------------------------------------------------------
-- What a rule takes
-- ---------------------------------------------------------------------------

theorem Rule.digitsLength_le (cs : List Char) : digitsLength cs ≤ cs.length :=
  (List.takeWhile_sublist _).length_le

theorem Rule.floatLength_le (cs : List Char) : floatLength cs ≤ cs.length := by
  unfold floatLength
  dsimp only
  split
  · next rest hdrop =>
    have hlength := congrArg List.length hdrop
    rw [List.length_drop, List.length_cons] at hlength
    have hfraction := digitsLength_le rest
    split <;> omega
  · exact Nat.zero_le _

theorem Rule.closingLength_le {cs : List Char} {n : Nat} (h : closingLength cs = some n) :
    n ≤ cs.length := by
  fun_induction closingLength cs generalizing n with
  | case1 => cases h
  | case2 rest =>
    obtain rfl := Option.some.inj h
    exact Nat.succ_le_succ (Nat.zero_le _)
  | case3 => cases h
  | case4 c rest _ ih =>
    obtain ⟨m, hm, rfl⟩ := Option.map_eq_some_iff.mp h
    exact Nat.add_le_add_right (ih hm) 2
  | case5 c rest _ _ ih =>
    obtain ⟨m, hm, rfl⟩ := Option.map_eq_some_iff.mp h
    exact Nat.succ_le_succ (ih hm)

theorem Rule.stringLength_le (cs : List Char) : stringLength cs ≤ cs.length := by
  unfold stringLength
  split
  · next rest =>
    cases hclosing : closingLength rest with
    | none => exact Nat.zero_le _
    | some n => exact Nat.succ_le_succ (closingLength_le hclosing)
  · exact Nat.zero_le _

theorem Rule.commentLength_le (cs : List Char) : commentLength cs ≤ cs.length := by
  unfold commentLength
  split
  · next rest =>
    have hline : (rest.takeWhile (· ≠ '\n')).length ≤ rest.length :=
      (List.takeWhile_sublist _).length_le
    rw [List.length_cons, List.length_cons]
    omega
  · exact Nat.zero_le _

theorem Rule.wordLength_le (cs : List Char) : wordLength cs ≤ cs.length := by
  cases cs with
  | nil => exact Nat.le_refl _
  | cons c rest =>
    have hrest : (rest.takeWhile isWordPart).length ≤ rest.length :=
      (List.takeWhile_sublist _).length_le
    rw [wordLength, List.length_cons]
    split <;> omega

theorem mem_rules {r : Rule} (hr : r ∈ rules) :
    r = .word ∨ r = .float ∨ r = .number ∨ r = .blank ∨ r = .string ∨ r = .comment ∨
      ∃ m ∈ marks, r = .mark m.1 m.2 := by
  simpa only [rules, List.mem_append, List.mem_cons, List.not_mem_nil, or_false, List.mem_map,
    eq_comm, or_assoc] using hr

theorem Rule.length_le {r : Rule} (hr : r ∈ rules) (cs : List Char) : r.length cs ≤ cs.length := by
  rcases mem_rules hr with rfl | rfl | rfl | rfl | rfl | rfl | ⟨m, -, rfl⟩
  · exact wordLength_le cs
  · exact floatLength_le cs
  · exact digitsLength_le cs
  · exact (List.takeWhile_sublist _).length_le
  · exact stringLength_le cs
  · exact commentLength_le cs
  · by_cases h : (mark m.1 m.2).length cs = 0
    · rw [h]
      exact Nat.zero_le _
    · obtain ⟨hfront, hlength⟩ := isPrefix_of_mark_length h
      rw [hlength]
      exact hfront.length_le

/-- A run of white space. -/
def IsBlankRun (text : List Char) : Prop := ∀ c ∈ text, Text.isBlank c = true

/-- Two slashes and more of their line. -/
def IsComment (text : List Char) : Prop := ∃ line, text = '/' :: '/' :: line ∧ '\n' ∉ line

/-- `text` is what the rules take in front of `rest`: one takes it whole and none takes more. -/
structure Longest (text rest : List Char) : Prop where
  nonempty : text ≠ []
  taken : ∃ r ∈ rules, r.length (text ++ rest) = text.length
  most : ∀ r ∈ rules, r.length (text ++ rest) ≤ text.length

theorem eq_of_isPrefix_append {front text rest : List Char} (h : front <+: text ++ rest)
    (hlength : front.length = text.length) : front = text := by
  obtain ⟨back, hback⟩ := h
  exact List.append_inj_left hback hlength

/-- The rules that make no token take white space and comments. -/
theorem isBlankRun_or_isComment {r : Rule} {text rest : List Char} (hr : r ∈ rules)
    (hlength : r.length (text ++ rest) = text.length) (hne : text ≠ [])
    (hmake : r.make text = none) : IsBlankRun text ∨ IsComment text := by
  rcases mem_rules hr with rfl | rfl | rfl | rfl | rfl | rfl | ⟨m, -, rfl⟩
  case inr.inr.inr.inl =>
    have htext : (text ++ rest).takeWhile Text.isBlank = text :=
      eq_of_isPrefix_append (List.takeWhile_prefix _) hlength
    rw [← htext]
    exact .inl fun c hc => List.all_eq_true.mp List.all_takeWhile c hc
  case inr.inr.inr.inr.inr.inl =>
    have hzero : Rule.commentLength (text ++ rest) ≠ 0 := fun h =>
      hne (List.length_eq_zero_iff.mp (hlength.symm.trans h))
    obtain ⟨tail, htail, htaken⟩ := Rule.exists_of_commentLength hzero
    have htext : '/' :: '/' :: tail.takeWhile (· ≠ '\n') = text := by
      have hfront : '/' :: '/' :: tail.takeWhile (· ≠ '\n') <+: text ++ rest := by
        rw [htail]
        exact ⟨tail.dropWhile (· ≠ '\n'), by simp⟩
      refine eq_of_isPrefix_append hfront ?_
      rw [List.length_cons, List.length_cons, ← hlength]
      exact (Nat.add_comm _ 2).trans htaken.symm
    refine .inr ⟨_, htext.symm, fun hline => ?_⟩
    simpa using List.all_eq_true.mp List.all_takeWhile _ hline
  all_goals cases hmake

theorem Kind.ofWord_ne_eof (word : String) : Kind.ofWord word ≠ .eof := by
  have hkeywords : ∀ k ∈ keywords, k.2 ≠ .eof := by decide
  intro h
  cases hword : keywords.lookup word with
  | none =>
    rw [Kind.ofWord, hword] at h
    cases h
  | some kind =>
    rw [Kind.ofWord, hword] at h
    obtain ⟨_, _, hsplit, -⟩ := List.lookup_eq_some_iff.mp hword
    refine hkeywords (word, kind) ?_ h
    rw [hsplit]
    exact List.mem_append_right _ List.mem_cons_self

/-- What the rules make a token from is its value, unless it is a string. -/
theorem lexeme_of_make {r : Rule} {text rest : List Char} {kind : Kind} {value : String}
    (hr : r ∈ rules) (hlength : r.length (text ++ rest) = text.length) (hne : text ≠ [])
    (hmake : r.make text = some (kind, value)) :
    kind ≠ .eof ∧ (kind ≠ .string → value = .ofList text) := by
  rcases mem_rules hr with rfl | rfl | rfl | rfl | rfl | rfl | ⟨m, hm, rfl⟩
  · obtain ⟨rfl, rfl⟩ := Prod.mk.inj (Option.some.inj hmake)
    exact ⟨Kind.ofWord_ne_eof _, fun _ => rfl⟩
  · obtain ⟨rfl, rfl⟩ := Prod.mk.inj (Option.some.inj hmake)
    exact ⟨nofun, fun _ => rfl⟩
  · obtain ⟨rfl, rfl⟩ := Prod.mk.inj (Option.some.inj hmake)
    exact ⟨nofun, fun _ => rfl⟩
  · cases hmake
  · obtain ⟨rfl, rfl⟩ := Prod.mk.inj (Option.some.inj hmake)
    exact ⟨nofun, fun h => absurd rfl h⟩
  · cases hmake
  · have hmarks : ∀ m ∈ marks, m.2 ≠ .eof := by decide
    have hzero : (Rule.mark m.1 m.2).length (text ++ rest) ≠ 0 := fun h =>
      hne (List.length_eq_zero_iff.mp (hlength.symm.trans h))
    obtain ⟨hfront, htaken⟩ := Rule.isPrefix_of_mark_length hzero
    have htext : m.1.toList = text := eq_of_isPrefix_append hfront (htaken.symm.trans hlength)
    obtain ⟨rfl, rfl⟩ := Prod.mk.inj (Option.some.inj hmake)
    exact ⟨hmarks m hm, fun _ => by rw [← htext, String.ofList_toList]⟩

-- ---------------------------------------------------------------------------
-- The layout of a text
-- ---------------------------------------------------------------------------

/-- The span goes from byte `start` up to byte `stop`, and its positions say so. -/
structure Marks (file : String) (start stop : Nat) (span : Span) : Prop where
  start : span.start.offset.toNat = start
  stop : span.stop.offset.toNat = stop
  startFile : span.start.file = file
  stopFile : span.stop.file = file

theorem toNat_ofByte {n : Nat} (h : n < UInt32.size) (file : String) :
    (Position.ofByte n file).offset.toNat = n :=
  UInt32.toNat_ofNat_of_lt h

theorem marks_ofBytes {start stop : Nat} (hstart : start ≤ stop) (hstop : stop < UInt32.size)
    (file : String) : Marks file start stop (.ofBytes start stop file) :=
  ⟨toNat_ofByte (Nat.lt_of_le_of_lt hstart hstop) file, toNat_ofByte hstop file, rfl, rfl⟩

theorem Marks.eq_ofBytes {file : String} {start stop : Nat} {span : Span}
    (h : Marks file start stop span) : span = .ofBytes start stop file :=
  calc span = ⟨.ofByte span.start.offset.toNat span.start.file,
        .ofByte span.stop.offset.toNat span.stop.file⟩ := by simp [Position.ofByte]
    _ = .ofBytes start stop file := by
        rw [h.start, h.stop, h.startFile, h.stopFile, Span.ofBytes]

/-- `text`, which starts at byte `offset` and stands in front of `rest`, is laid out in
`tokens` with white space and comments around them. -/
inductive Tiles (file : String) : Nat → List Char → List Char → List Token → Prop
  | done {offset : Nat} {rest : List Char} : Tiles file offset [] rest []
  | gap {offset : Nat} {piece text rest : List Char} {tokens : List Token} :
      Longest piece (text ++ rest) → IsBlankRun piece ∨ IsComment piece →
      Tiles file (offset + byteLength piece) text rest tokens →
      Tiles file offset (piece ++ text) rest tokens
  | token {offset : Nat} {piece text rest : List Char} {token : Token} {tokens : List Token} :
      Longest piece (text ++ rest) →
      Marks file offset (offset + byteLength piece) token.span →
      token.kind ≠ .eof → (token.kind ≠ .string → token.value = .ofList piece) →
      Tiles file (offset + byteLength piece) text rest tokens →
      Tiles file offset (piece ++ text) rest (token :: tokens)

/-- The token behind the last character. -/
def atEnd (file : String) (offset : Nat) : Token :=
  ⟨.eof, "EOF", .ofBytes offset offset file⟩

/-- The tokens of a layout stand in order, between its ends. -/
theorem Tiles.ordered {file : String} {offset : Nat} {text rest : List Char}
    {tokens : List Token} (h : Tiles file offset text rest tokens)
    (hsize : offset + byteLength text < UInt32.size) :
    (tokens ++ [atEnd file (offset + byteLength text)]).Pairwise
        (fun t u => t.span.stop.offset ≤ u.span.start.offset) ∧
      ∀ t ∈ tokens, offset ≤ t.span.start.offset.toNat := by
  induction h with
  | done => exact ⟨List.pairwise_singleton _ _, nofun⟩
  | gap _ _ _ ih =>
    rw [byteLength_append, ← Nat.add_assoc] at hsize ⊢
    obtain ⟨hordered, hafter⟩ := ih hsize
    exact ⟨hordered, fun t ht => (Nat.le_add_right _ _).trans (hafter t ht)⟩
  | token _ hspan _ _ _ ih =>
    rw [byteLength_append, ← Nat.add_assoc] at hsize ⊢
    obtain ⟨hordered, hafter⟩ := ih hsize
    rw [List.cons_append]
    refine ⟨List.pairwise_cons.mpr ⟨fun t ht => ?_, hordered⟩, fun t ht => ?_⟩
    · rw [UInt32.le_iff_toNat_le, hspan.stop]
      rcases List.mem_append.mp ht with ht | ht
      · exact hafter t ht
      · rw [List.mem_singleton.mp ht]
        exact (Nat.le_add_right _ _).trans (Nat.le_of_eq (toNat_ofByte hsize file).symm)
    · rcases List.mem_cons.mp ht with rfl | ht
      · rw [hspan.start]
      · exact (Nat.le_add_right _ _).trans (hafter t ht)

/-- A token has characters. -/
theorem Tiles.start_lt_stop {file : String} {offset : Nat} {text rest : List Char}
    {tokens : List Token} (h : Tiles file offset text rest tokens) :
    ∀ t ∈ tokens, t.span.start.offset < t.span.stop.offset := by
  induction h with
  | done => exact nofun
  | gap _ _ _ ih => exact ih
  | @token offset piece _ _ _ _ hlongest hspan _ _ _ ih =>
    refine List.forall_mem_cons.mpr ⟨?_, ih⟩
    rw [UInt32.lt_iff_toNat_lt, hspan.start, hspan.stop]
    cases piece with
    | nil => exact absurd rfl hlongest.1
    | cons c cs =>
      have hpos := c.utf8Size_pos
      rw [byteLength_cons]
      omega

theorem longest_of_cuts {rule : Rule} {text rest : List Char} (h : Cuts rule text rest)
    (hne : text ≠ []) : Longest text rest := by
  obtain ⟨hr, hlength, -⟩ := firstRule?_eq_some h
  exact ⟨hne, ⟨rule, hr, hlength.symm⟩, length_le_of_firstRule? h⟩

/-- The first rule cuts the text in two. -/
theorem exists_cuts {rule : Rule} {cs : List Char} {n : Nat}
    (h : firstRule? cs = some (rule, n)) :
    ∃ text rest, cs = text ++ rest ∧ text ≠ [] ∧ Cuts rule text rest := by
  obtain ⟨hr, rfl, hne⟩ := firstRule?_eq_some h
  have hlength : (cs.take (rule.length cs)).length = rule.length cs :=
    List.length_take_of_le (rule.length_le hr cs)
  refine ⟨cs.take (rule.length cs), cs.drop (rule.length cs), ?_, ?_, ?_⟩
  · rw [List.take_append_drop]
  · rw [← List.length_pos_iff, hlength]
    exact Nat.pos_of_ne_zero hne
  · rw [Cuts, List.take_append_drop, hlength]
    exact h

/-- The text is laid out to its end, or up to a character that no rule takes. -/
def LaidOut (file : String) (offset : Nat) (cs : List Char) :
    Except Diagnostic (List Token) → Prop
  | .ok tokens => ∃ ts, tokens = ts ++ [atEnd file (offset + byteLength cs)] ∧
      Tiles file offset cs [] ts
  | .error d => ∃ text c rest ts, cs = text ++ c :: rest ∧ Tiles file offset text (c :: rest) ts ∧
      (∀ r ∈ rules, r.length (c :: rest) = 0) ∧
      d = .fatal (.unrecognisedToken (.ofList [c])) (.ofByte (offset + byteLength text) file)

theorem LaidOut.gap {file : String} {offset : Nat} {piece cs : List Char}
    {result : Except Diagnostic (List Token)} (hlongest : Longest piece cs)
    (hgap : IsBlankRun piece ∨ IsComment piece)
    (h : LaidOut file (offset + byteLength piece) cs result) :
    LaidOut file offset (piece ++ cs) result := by
  cases result with
  | ok tokens =>
    obtain ⟨ts, rfl, htiles⟩ := h
    refine ⟨ts, ?_, .gap (by rwa [List.append_nil]) hgap htiles⟩
    rw [byteLength_append, Nat.add_assoc]
  | error d =>
    obtain ⟨text, c, rest, ts, rfl, htiles, hnone, rfl⟩ := h
    refine ⟨piece ++ text, c, rest, ts, ?_, .gap hlongest hgap htiles, hnone, ?_⟩
    · rw [List.append_assoc]
    · rw [byteLength_append, Nat.add_assoc]

theorem LaidOut.token {file : String} {offset : Nat} {piece cs : List Char} {token : Token}
    {result : Except Diagnostic (List Token)} (hlongest : Longest piece cs)
    (hspan : Marks file offset (offset + byteLength piece) token.span)
    (hkind : token.kind ≠ .eof) (hvalue : token.kind ≠ .string → token.value = .ofList piece)
    (h : LaidOut file (offset + byteLength piece) cs result) :
    LaidOut file offset (piece ++ cs) (result.map (token :: ·)) := by
  cases result with
  | ok tokens =>
    obtain ⟨ts, rfl, htiles⟩ := h
    refine ⟨token :: ts, ?_, .token (by rwa [List.append_nil]) hspan hkind hvalue htiles⟩
    rw [byteLength_append, Nat.add_assoc, List.cons_append]
  | error d =>
    obtain ⟨text, c, rest, ts, rfl, htiles, hnone, rfl⟩ := h
    refine ⟨piece ++ text, c, rest, token :: ts, ?_, .token hlongest hspan hkind hvalue htiles,
      hnone, ?_⟩
    · rw [List.append_assoc]
    · rw [byteLength_append, Nat.add_assoc]

theorem laidOut_scan (file : String) (offset : Nat) (cs : List Char)
    (hsize : offset + byteLength cs < UInt32.size) :
    LaidOut file offset cs (scan file 0 offset cs) := by
  -- Each cut takes a piece off the front, so what is left gets shorter.
  induction hlength : cs.length using Nat.strong_induction_on generalizing offset cs with
  | h n ih =>
  cases cs with
  | nil => exact ⟨[], rfl, .done⟩
  | cons c cs =>
  cases hrule : firstRule? (c :: cs) with
  | none =>
    have hscan : scan file 0 offset (c :: cs) =
        .error (.fatal (.unrecognisedToken (.ofList [c])) (.ofByte offset file)) := by
      rw [scan, hrule]
    rw [hscan]
    refine ⟨[], c, cs, [], rfl, .done, fun r hr => ?_, rfl⟩
    simpa using List.findSome?_eq_none_iff.mp hrule r hr
  | some found =>
    obtain ⟨piece, rest, hsplit, hne, hcuts⟩ := exists_cuts hrule
    have hlongest := longest_of_cuts hcuts hne
    obtain ⟨hr, htaken, -⟩ := firstRule?_eq_some hcuts
    have hshorter : rest.length < n := by
      have hpiece := List.length_pos_iff.mpr hne
      rw [← hlength, hsplit, List.length_append]
      omega
    rw [hsplit, byteLength_append, ← Nat.add_assoc] at hsize
    have hrest := ih rest.length hshorter (offset + byteLength piece) rest hsize rfl
    have hspan := marks_ofBytes (Nat.le_add_right offset (byteLength piece))
      (Nat.lt_of_le_of_lt (Nat.le_add_right _ _) hsize) file
    rw [hsplit, scan_cut hcuts hne file offset]
    cases hmake : found.1.make piece with
    | none => exact hrest.gap hlongest (isBlankRun_or_isComment hr htaken.symm hne hmake)
    | some lexeme =>
      obtain ⟨hkind, hvalue⟩ := lexeme_of_make hr htaken.symm hne hmake
      exact hrest.token hlongest hspan hkind hvalue

theorem laidOut_tokenize {source : String} (hsize : source.utf8ByteSize < UInt32.size)
    (file : String) : LaidOut file 0 source.toList (tokenize source file) := by
  refine laidOut_scan file 0 source.toList ?_
  rwa [Nat.zero_add, ← utf8ByteSize_eq]

end Token

/-- A text of fewer than `2 ^ 32` bytes is laid out without holes in tokens, white space and
comments, each as long as any rule reaches; or it is so up to the first character that no rule
takes, which is reported. -/
theorem tokenize_tiles {source : String} (hsize : source.utf8ByteSize < UInt32.size)
    (file : String) :
    match tokenize source file with
    | .ok tokens =>
      ∃ ts last, tokens = ts ++ [last] ∧ Token.Tiles file 0 source.toList [] ts ∧
        last = Token.atEnd file source.utf8ByteSize ∧
        Token.Marks file source.utf8ByteSize source.utf8ByteSize last.span ∧
        (∀ t ∈ ts, t.span.start.offset < t.span.stop.offset) ∧
        tokens.Pairwise fun t u => t.span.stop.offset ≤ u.span.start.offset
    | .error d =>
      ∃ text c rest ts, source.toList = text ++ c :: rest ∧
        Token.Tiles file 0 text (c :: rest) ts ∧
        (∀ r ∈ Token.rules, r.length (c :: rest) = 0) ∧
        d = .fatal (.unrecognisedToken (.ofList [c])) (.ofByte (byteLength text) file) ∧
        d.position.offset.toNat = byteLength text := by
  have hscan := Token.laidOut_tokenize hsize file
  rw [utf8ByteSize_eq] at hsize ⊢
  have hbytes : 0 + byteLength source.toList < UInt32.size := by rwa [Nat.zero_add]
  cases htokens : tokenize source file with
  | ok tokens =>
    rw [htokens] at hscan
    obtain ⟨ts, rfl, htiles⟩ := hscan
    have hordered := (htiles.ordered hbytes).1
    rw [Nat.zero_add] at hordered ⊢
    exact ⟨ts, _, rfl, htiles, rfl, Token.marks_ofBytes (Nat.le_refl _) hsize file,
      htiles.start_lt_stop, hordered⟩
  | error d =>
    rw [htokens] at hscan
    obtain ⟨text, c, rest, ts, hsource, htiles, hnone, rfl⟩ := hscan
    rw [Nat.zero_add]
    refine ⟨text, c, rest, ts, hsource, htiles, hnone, rfl, Token.toNat_ofByte ?_ file⟩
    rw [hsource, byteLength_append] at hsize
    exact Nat.lt_of_le_of_lt (Nat.le_add_right _ _) hsize

/-- A text whose second token is shorter in characters than in bytes. -/
theorem tokenize_tiles_accent :
    "x \"é\"".utf8ByteSize < UInt32.size ∧ ∃ first second last,
      tokenize "x \"é\"" unnamedFile = .ok [first, second, last] ∧
      Token.Tiles unnamedFile 0 "x \"é\"".toList [] [first, second] ∧
      second.span.start.offset < second.span.stop.offset ∧
      last.span.start.offset.toNat = "x \"é\"".utf8ByteSize := by
  have hsize : "x \"é\"".utf8ByteSize < UInt32.size := by decide
  have htiles := tokenize_tiles hsize unnamedFile
  have hcount : (match tokenize "x \"é\"" unnamedFile with
      | .ok tokens => tokens.length == 3
      | .error _ => false) = true := by decide +kernel
  cases htokens : tokenize "x \"é\"" unnamedFile with
  | error d => simp [htokens] at hcount
  | ok tokens =>
    simp only [htokens] at htiles hcount
    obtain ⟨ts, last, rfl, hlaid, -, hlast, hsolid, -⟩ := htiles
    obtain ⟨first, second, rfl⟩ : ∃ first second, ts = [first, second] :=
      List.length_eq_two.mp (by simpa using hcount)
    exact ⟨hsize, first, second, last, rfl, hlaid, hsolid second (by simp), hlast.start⟩

/-- The token behind the last character stands for no text, but its value is not empty. -/
theorem value_of_empty_text : ∃ token, tokenize "" unnamedFile = .ok [token] ∧
    token.kind ≠ .string ∧ token.span.start.offset = 0 ∧ token.span.stop.offset = 0 ∧
    token.value ≠ "" :=
  ⟨Token.atEnd unnamedFile 0, rfl, nofun, rfl, rfl, by decide⟩

end BlockLang
