import E5r.AnnotationText
import E5r.TextSlices
import E5r.LineText

/-!
Free text in quotes. A quote, a backslash, a line feed and a tab are escaped, so the
closing quote is found, the line does not end early, and the text is read back.
-/
namespace E5r.QuotedText
open RustText TextSlices LineText AnnotationText

def escapeChar (c : Char) : List Char :=
  match c with
  | '"' => ['\\', '"']
  | '\\' => ['\\', '\\']
  | '\n' => ['\\', 'n']
  | '\t' => ['\\', 't']
  | c => [c]

/-- Quote a value so that it survives a line that is split at white space. -/
def escape (s : List Char) : List Char := '"' :: (s.flatMap escapeChar ++ ['"'])

theorem escapeChar_cases (c : Char) :
    (∃ d, escapeChar c = ['\\', d] ∧ d ≠ '\n' ∧ c = (match d with | 'n' => '\n' | 't' => '\t' | other => other)) ∨
      (escapeChar c = [c] ∧ c ≠ '"' ∧ c ≠ '\\' ∧ c ≠ '\n') := by
  by_cases quote : c = '"'
  · subst quote
    exact .inl ⟨'"', rfl, by decide, rfl⟩
  by_cases slash : c = '\\'
  · subst slash
    exact .inl ⟨'\\', rfl, by decide, rfl⟩
  by_cases feed : c = '\n'
  · subst feed
    exact .inl ⟨'n', rfl, by decide, rfl⟩
  by_cases tab : c = '\t'
  · subst tab
    exact .inl ⟨'t', rfl, by decide, rfl⟩
  · exact .inr ⟨by simp [escapeChar, quote, slash, feed, tab], quote, slash, feed⟩

theorem unescapeBody_escaped (d : Char) (rest : List Char) :
    unescapeBody ('\\' :: d :: rest) =
      (unescapeBody rest).map (fun out => (match d with | 'n' => '\n' | 't' => '\t' | other => other) :: out) := by
  rw [unescapeBody.eq_def]
  rfl

theorem unescapeBody_plain {c : Char} (other : c ≠ '\\') (rest : List Char) :
    unescapeBody (c :: rest) = (unescapeBody rest).map (fun out => c :: out) := by
  rw [unescapeBody.eq_def]
  split
  · next absurd => cases absurd
  · next same => exact absurd (List.cons.inj same).1 other
  · next same => exact absurd (List.cons.inj same).1 other
  · next same =>
    obtain ⟨rfl, rfl⟩ := List.cons.inj same
    rfl

variable (s : List Char)

theorem unescapeBody_escape : unescapeBody (s.flatMap escapeChar) = some s := by
  induction s with
  | nil => rfl
  | cons c s ih =>
    rw [List.flatMap_cons]
    rcases escapeChar_cases c with ⟨d, is, -, stands⟩ | ⟨is, -, slash, -⟩
    · rw [is]
      show unescapeBody ('\\' :: d :: s.flatMap escapeChar) = _
      rw [unescapeBody_escaped, ih, stands]
      rfl
    · rw [is]
      show unescapeBody (c :: s.flatMap escapeChar) = _
      rw [unescapeBody_plain slash, ih]
      rfl

theorem unescape_escape : unescape (escape s) = some s := by
  have opening : stripPrefix ['"'] (escape s) = some (s.flatMap escapeChar ++ ['"']) := stripPrefix_append ['"'] _
  rw [unescape, opening]
  show (stripSuffix ['"'] (s.flatMap escapeChar ++ ['"'])).bind unescapeBody = _
  rw [stripSuffix_append]
  exact unescapeBody_escape s

theorem findQuoteFrom_plain {c : Char} (slash : c ≠ '\\') (quote : c ≠ '"') (i : ℕ) (rest : List Char) :
    findQuoteFrom i (c :: rest) = findQuoteFrom (i + 1) rest := by
  rw [findQuoteFrom.eq_def]
  split
  · next absurd => cases absurd
  · next same => exact absurd (List.cons.inj same).1 slash
  · next same => exact absurd (List.cons.inj same).1 slash
  · next same =>
    obtain ⟨rfl, rfl⟩ := List.cons.inj same
    exact if_neg quote

theorem findQuoteFrom_escape (rest : List Char) (i : ℕ) :
    findQuoteFrom i (s.flatMap escapeChar ++ '"' :: rest) = some (i + (s.flatMap escapeChar).length) := by
  induction s generalizing i with
  | nil =>
    rw [findQuoteFrom.eq_def]
    rfl
  | cons c s ih =>
    rw [List.flatMap_cons]
    rcases escapeChar_cases c with ⟨d, is, -, -⟩ | ⟨is, quote, slash, -⟩
    · rw [is]
      show findQuoteFrom i ('\\' :: d :: (s.flatMap escapeChar ++ '"' :: rest)) = _
      rw [findQuoteFrom, ih]
      simp only [List.length_append, List.length_cons, List.length_nil]
      congr 1
      omega
    · rw [is]
      show findQuoteFrom i (c :: (s.flatMap escapeChar ++ '"' :: rest)) = _
      rw [findQuoteFrom_plain slash quote, ih]
      simp only [List.length_append, List.length_cons, List.length_nil]
      congr 1
      omega

theorem findQuoteEnd_escape (rest : List Char) : findQuoteEnd (escape s ++ rest) = some ((escape s).length - 1) := by
  have body : (escape s ++ rest).drop 1 = s.flatMap escapeChar ++ '"' :: rest := by simp [escape]
  rw [findQuoteEnd, body, findQuoteFrom_escape]
  simp [escape, Nat.add_comm]

theorem length_escape : 2 ≤ (escape s).length := by
  simp only [escape, List.length_cons, List.length_append, List.length_nil]
  omega

theorem take_escape (rest : List Char) : (escape s ++ rest).take ((escape s).length - 1 + 1) = escape s := by
  have := length_escape s
  rw [Nat.sub_add_cancel (by omega), List.take_left' rfl]

theorem drop_escape (rest : List Char) : (escape s ++ rest).drop ((escape s).length - 1 + 1) = rest := by
  have := length_escape s
  rw [Nat.sub_add_cancel (by omega), List.drop_left' rfl]

theorem feed_escape : '\n' ∉ escape s := by
  have each : ∀ c, '\n' ∉ escapeChar c := by
    intro c
    rcases escapeChar_cases c with ⟨d, is, other, -⟩ | ⟨is, -, -, other⟩
    · rw [is]
      simp [Ne.symm other]
    · rw [is]
      simp [Ne.symm other]
  simp [escape, each]

theorem head_escape : (escape s).head? = some '"' := rfl
theorem getLast_escape : (escape s).getLast? = some '"' := by
  rw [escape, ← List.cons_append, List.getLast?_concat]

theorem splitAtFirst_append {c : Char} {p head : List Char} (last : Char) (ends : last ∈ p) (before : last ∉ head)
    (once : c ∉ p) (tail : List Char) :
    splitAtFirst (c :: p) (head ++ (c :: p ++ tail)) = some (head, c :: p ++ tail) := by
  induction head with
  | nil =>
    rw [List.nil_append, List.cons_append, splitAtFirst, if_pos]
    exact List.isPrefixOf_iff_prefix.mpr (List.prefix_append (c :: p) tail)
  | cons d head ih =>
    obtain ⟨other, later⟩ := not_or.mp (List.mem_cons.not.mp before)
    rw [List.cons_append, splitAtFirst, if_neg, ih later]
    · rfl
    · intro starts
      obtain ⟨more, same⟩ := List.isPrefixOf_iff_prefix.mp starts
      obtain ⟨rfl, rest⟩ := List.cons.inj same
      -- the rest of the text reaches past the head, so its first character is in it again
      rcases List.append_eq_append_iff.mp rest with ⟨a, is, -⟩ | ⟨a, is, tail⟩
      · exact later (is ▸ List.mem_append_left a ends)
      · cases a with
        | nil =>
          rw [List.append_nil] at is
          exact later (is ▸ ends)
        | cons x a =>
          obtain ⟨rfl, -⟩ := List.cons.inj tail
          exact once (by rw [is]; simp)

end E5r.QuotedText
