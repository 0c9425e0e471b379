import BlockLang.Operator
import BlockLang.Token.Scan

/-!
# Names and operators

Every identifier that a text is cut into starts like a word. No operator does, so that no
name can be mistaken for one.
-/

namespace BlockLang

/-- The name starts with a letter or an underscore. -/
def IsWord (name : String) : Prop := ∃ c cs, name = .ofList (c :: cs) ∧ Token.Rule.isWordStart c

/-- An operator is declared under the name. -/
def IsOperator (name : String) : Prop := ∃ kind : Builtin.Kind, name = kind.symbol

theorem isOperator_binary (op : BinaryOp) : IsOperator op.symbol := ⟨.binary op, rfl⟩

theorem isOperator_unary (op : UnaryOp) : IsOperator op.symbol := ⟨.unary op, rfl⟩

theorem IsWord.not_isOperator (h : IsWord name) : ¬ IsOperator name := by
  rintro ⟨kind, rfl⟩
  obtain ⟨c, cs, hname, hc⟩ := h
  have hhead : kind.symbol.toList.head?.any Token.Rule.isWordStart = false := by
    cases kind with
    | binary op => cases op <;> rfl
    | unary op => cases op <;> rfl
  rw [hname] at hhead
  simp [hc] at hhead

namespace Token

theorem firstRule?_eq_some {rule : Rule} (h : firstRule? cs = some (rule, n)) :
    rule ∈ rules ∧ n = rule.length cs ∧ n ≠ 0 := by
  obtain ⟨rule', hmem, hrule⟩ := List.exists_of_findSome?_eq_some h
  dsimp only at hrule
  split at hrule
  · cases hrule
  · obtain ⟨rfl, rfl⟩ := Prod.mk.inj (Option.some.inj hrule)
    exact ⟨hmem, rfl, ‹_›⟩

/-- Only words become identifiers. -/
theorem eq_word_of_make {rule : Rule} {text : List Char} {value : String} (hr : rule ∈ rules)
    (h : rule.make text = some (.identifier, value)) : rule = .word := by
  rcases List.mem_append.mp hr with hr | hr
  · simp only [List.mem_cons, List.not_mem_nil, or_false] at hr
    rcases hr with rfl | rfl | rfl | rfl | rfl | rfl
    · rfl
    all_goals simp [Rule.float, Rule.number, Rule.blank, Rule.string, Rule.comment] at h
  · obtain ⟨⟨mark, kind⟩, hm, rfl⟩ := List.mem_map.mp hr
    obtain rfl : kind = .identifier := (Prod.mk.inj (Option.some.inj h)).1
    have hmarks : ∀ m ∈ marks, m.2 ≠ .identifier := by decide
    exact absurd rfl (hmarks _ hm)

theorem isWord_of_make {rule : Rule} {value : String}
    (hr : firstRule? (c :: cs) = some (rule, n))
    (h : rule.make ((c :: cs).take n) = some (.identifier, value)) : IsWord value := by
  obtain ⟨hmem, hn, hpos⟩ := firstRule?_eq_some hr
  obtain rfl := eq_word_of_make hmem h
  have hstart : Rule.isWordStart c = true := by
    cases hc : Rule.isWordStart c with
    | true => rfl
    | false =>
      simp [Rule.word, Rule.wordLength, hc] at hn
      exact absurd hn hpos
  obtain ⟨m, rfl⟩ := Nat.exists_eq_succ_of_ne_zero hpos
  obtain rfl : .ofList ((c :: cs).take (m + 1)) = value := (Prod.mk.inj (Option.some.inj h)).2
  exact ⟨c, cs.take m, rfl, hstart⟩

theorem isWord_of_scan {file : String} {taken offset : Nat} {tokens : List Token}
    (h : scan file taken offset cs = .ok tokens) :
    ∀ t ∈ tokens, t.kind = .identifier → IsWord t.value := by
  induction cs generalizing taken offset tokens with
  | nil =>
    obtain rfl := Except.ok.inj h
    intro t ht hk
    obtain rfl := List.mem_singleton.mp ht
    cases hk
  | cons c cs ih =>
    unfold scan at h
    split at h
    · exact ih h
    split at h
    · cases h
    · next rule n hrule =>
      dsimp only at h
      split at h
      · exact ih h
      · next kind value hmake =>
        cases hrest : scan file (n - 1) (offset + c.utf8Size) cs with
        | error e =>
          rw [hrest] at h
          cases h
        | ok rest =>
          rw [hrest] at h
          obtain rfl := Except.ok.inj h
          refine List.forall_mem_cons.mpr ⟨fun hk => ?_, ih hrest⟩
          obtain rfl : kind = .identifier := hk
          exact isWord_of_make hrule hmake

end Token

/-- The names in a text are words. -/
theorem isWord_of_tokenize {source file : String} {tokens : List Token}
    (h : tokenize source file = .ok tokens) :
    ∀ t ∈ tokens, t.kind = .identifier → IsWord t.value := Token.isWord_of_scan h

end BlockLang
