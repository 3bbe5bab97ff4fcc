import E5r.SlaTokens

/-!
# Trees of a `.sla` payload, written and read back

The encoder's walk writes every element as `written` says, unless the tree is too deep. The
decoder's turns over those bytes build the tree again, with the byte range of every element.
-/

namespace E5r.SlaRoundTrip

open Outcomes CheckedWords SlaTree SlaTokens Relation

mutual
def written : Node → Except EncodeError (List UInt8)
  | ⟨id, attrs, children, _, _⟩ => do
    let attrs ← pushAttrs attrs
    let children ← writtenAll children
    return pushTag T_ELEMENT_START T_ELEMENT_START_EXT id ++ attrs ++ children ++
      pushTag T_ELEMENT_END T_ELEMENT_END_EXT id

def writtenAll : List Node → Except EncodeError (List UInt8)
  | [] => .ok []
  | n :: ns => do
    let first ← written n
    let rest ← writtenAll ns
    return first ++ rest
end

mutual
/-- How many levels a tree has. -/
def height : Node → ℕ
  | ⟨_, _, children, _, _⟩ => heights children + 1

def heights : List Node → ℕ
  | [] => 0
  | n :: ns => max (height n) (heights ns)
end

mutual
/-- A tree without its byte ranges. -/
def strip : Node → Node
  | ⟨id, attrs, children, _, _⟩ => ⟨id, attrs, stripAll children, 0, 0⟩

def stripAll : List Node → List Node
  | [] => []
  | n :: ns => strip n :: stripAll ns
end

mutual
/-- Every attribute value of the tree is one that reads back. -/
def Fits : Node → Prop
  | ⟨_, attrs, children, _, _⟩ => (∀ a ∈ attrs, Holds a.2) ∧ AllFit children

def AllFit : List Node → Prop
  | [] => True
  | n :: ns => Fits n ∧ AllFit ns
end

theorem pushAttrs_fits {attrs : List (UInt32 × Value)} (holds : ∀ a ∈ attrs, Holds a.2) :
    ∃ bs, pushAttrs attrs = .ok bs := by
  induction attrs with
  | nil => exact ⟨[], rfl⟩
  | cons a attrs ih =>
    obtain ⟨id, v⟩ := a
    obtain ⟨rest, others⟩ := ih fun b member => holds b (List.mem_cons_of_mem _ member)
    obtain ⟨first, here⟩ := pushValue_holds (holds _ List.mem_cons_self)
    exact ⟨_, by rw [pushAttrs, here, others]; rfl⟩

mutual
theorem written_fits : ∀ {n : Node}, Fits n → ∃ bs, written n = .ok bs
  | ⟨id, attrs, children, start, stop⟩, fits => by
    obtain ⟨a, first⟩ := pushAttrs_fits fits.1
    obtain ⟨c, rest⟩ := writtenAll_fit fits.2
    exact ⟨_, by rw [written, first, rest]; rfl⟩

theorem writtenAll_fit : ∀ {ns : List Node}, AllFit ns → ∃ bs, writtenAll ns = .ok bs
  | [], _ => ⟨[], rfl⟩
  | n :: ns, fit => by
    obtain ⟨a, first⟩ := written_fits fit.1
    obtain ⟨c, rest⟩ := writtenAll_fit fit.2
    exact ⟨_, by rw [writtenAll, first, rest]; rfl⟩
end

mutual
theorem encodes (out : List UInt8) (depth : ℕ) (stack : List Step) : ∀ n : Node,
    height n + depth ≤ MAX_DEPTH →
      encodeInto out depth (.opens n :: stack) =
        (written n >>= fun bs => encodeInto (out ++ bs) depth stack)
  | ⟨id, attrs, children, start, stop⟩, shallow => by
    simp only [height] at shallow
    rw [encodeInto, if_neg (by omega), written]
    cases pushAttrs attrs with
    | error e => rfl
    | ok a =>
      dsimp only
      rw [encodesAll _ (depth + 1) _ children (by omega)]
      cases writtenAll children with
      | error e => rfl
      | ok c =>
        show encodeInto _ (depth + 1) (.closes id :: stack) = encodeInto _ depth stack
        rw [encodeInto, Nat.add_sub_cancel]
        simp only [List.append_assoc]

theorem encodesAll (out : List UInt8) (depth : ℕ) (stack : List Step) : ∀ ns : List Node,
    heights ns + depth ≤ MAX_DEPTH →
      encodeInto out depth (opened ns ++ stack) =
        (writtenAll ns >>= fun bs => encodeInto (out ++ bs) depth stack)
  | [], _ => by
    show encodeInto out depth stack = encodeInto (out ++ []) depth stack
    rw [List.append_nil]
  | n :: ns, shallow => by
    simp only [heights] at shallow
    show encodeInto out depth (.opens n :: (opened ns ++ stack)) = _
    rw [encodes out depth _ n (by omega), writtenAll]
    cases written n with
    | error e => rfl
    | ok a =>
      show encodeInto (out ++ a) depth (opened ns ++ stack) = _
      rw [encodesAll _ depth stack ns (by omega)]
      cases writtenAll ns with
      | error e => rfl
      | ok c =>
        show encodeInto (out ++ a ++ c) depth stack = encodeInto (out ++ (a ++ c)) depth stack
        rw [List.append_assoc]
end

mutual
theorem refuses (out : List UInt8) (depth : ℕ) (stack : List Step) : ∀ n : Node,
    MAX_DEPTH < height n + depth →
      ∃ e, encodeInto out depth (.opens n :: stack) = .error e ∧ (Fits n → e = .tooDeep)
  | ⟨id, attrs, children, start, stop⟩, deep => by
    simp only [height] at deep
    rw [encodeInto]
    split
    · exact ⟨_, rfl, fun _ => rfl⟩
    next room =>
    cases values : pushAttrs attrs with
    | error e =>
      refine ⟨e, rfl, fun fits => ?_⟩
      obtain ⟨a, wrote⟩ := pushAttrs_fits fits.1
      rw [values] at wrote
      cases wrote
    | ok a =>
      obtain ⟨e, refused, why⟩ := refusesAll _ (depth + 1) _ (by omega) children (by omega)
      exact ⟨e, refused, fun fits => why fits.2⟩

theorem refusesAll (out : List UInt8) (depth : ℕ) (stack : List Step) (room : depth ≤ MAX_DEPTH) :
    ∀ ns : List Node, MAX_DEPTH < heights ns + depth →
      ∃ e, encodeInto out depth (opened ns ++ stack) = .error e ∧ (AllFit ns → e = .tooDeep)
  | [], deep => by
    simp only [heights] at deep
    omega
  | n :: ns, deep => by
    simp only [heights] at deep
    by_cases shallow : height n + depth ≤ MAX_DEPTH
    · show ∃ e, encodeInto out depth (.opens n :: (opened ns ++ stack)) = .error e ∧ _
      rw [encodes out depth _ n shallow]
      cases wrote : written n with
      | error e =>
        refine ⟨e, rfl, fun fits => ?_⟩
        obtain ⟨bs, same⟩ := written_fits fits.1
        rw [wrote] at same
        cases same
      | ok a =>
        obtain ⟨e, refused, why⟩ := refusesAll (out ++ a) depth stack room ns (by omega)
        exact ⟨e, refused, fun fits => why fits.2⟩
    · obtain ⟨e, refused, why⟩ := refuses out depth (opened ns ++ stack) n (by omega)
      exact ⟨e, refused, fun fits => why fits.1⟩
end

section

variable {arith : Arith} (exact : Exact arith) {data : List UInt8} (short : data.length < 2 ^ 63)

def Turns (arith : Arith) (data : List UInt8) (s s' : State) : Prop :=
  s.pos < data.length ∧ turn arith data s = .ok s'

/-- An element that ends here, given to the one it is in. -/
def delivered (pos : ℕ) (done : Node) : List Node → State
  | [] => ⟨pos, [], some done⟩
  | parent :: stack => ⟨pos, { parent with children := parent.children ++ [done] } :: stack, none⟩

theorem pushTag_ne_nil (short_ ext : UInt8) (id : UInt32) : pushTag short_ ext id ≠ [] := by
  unfold pushTag
  split <;> nofun

theorem tag_inside {pos : ℕ} {short_ ext : UInt8} {id : UInt32} {rest : List UInt8}
    (here : data.drop pos = pushTag short_ ext id ++ rest) : pos < data.length := by
  have inside := drop_inside here (pushTag_ne_nil short_ ext id)
  have := List.length_pos_of_ne_nil (pushTag_ne_nil short_ ext id)
  omega

include exact short

theorem turns_open {pos : ℕ} {stack : List Node} {id : UInt32} {rest : List UInt8}
    (here : data.drop pos = pushTag T_ELEMENT_START T_ELEMENT_START_EXT id ++ rest)
    (room : stack.length < MAX_DEPTH) :
    Turns arith data ⟨pos, stack, none⟩
      ⟨pos + (pushTag T_ELEMENT_START T_ELEMENT_START_EXT id).length, ⟨id, [], [], pos, pos⟩ :: stack, none⟩ := by
  refine ⟨tag_inside here, ?_⟩
  obtain ⟨kind, kinds, read⟩ := tag_takes exact short (show Forms _ _ 2 by simp [Forms]) here
  rw [turn, if_neg (by simp)]
  simp only [read, ok_bind]
  have isOpen : kind = 2 ∨ kind = 3 := kinds
  rw [if_pos isOpen, if_neg (by omega)]

theorem turns_close (done : Node) (stack : List Node) {pos : ℕ} {rest : List UInt8}
    (here : data.drop pos = pushTag T_ELEMENT_END T_ELEMENT_END_EXT done.id ++ rest) :
    Turns arith data ⟨pos, done :: stack, none⟩
      (delivered (pos + (pushTag T_ELEMENT_END T_ELEMENT_END_EXT done.id).length)
        { done with stop := pos + (pushTag T_ELEMENT_END T_ELEMENT_END_EXT done.id).length } stack) := by
  refine ⟨tag_inside here, ?_⟩
  obtain ⟨kind, kinds, read⟩ := tag_takes exact short (show Forms _ _ 4 by simp [Forms]) here
  have notOpen : ¬(kind = 2 ∨ kind = 3) := by rcases kinds with rfl | rfl <;> decide
  rw [turn, if_neg (by simp)]
  simp only [read, ok_bind]
  have isClose : kind = 4 ∨ kind = 5 := kinds
  rw [if_neg notOpen, if_pos isClose, if_neg (by simp)]
  cases stack <;> rfl

theorem turns_attribute (parent : Node) (stack : List Node) {pos : ℕ} {id : UInt32} {v : Value}
    {bs rest : List UInt8} (wrote : pushValue v = .ok bs) (holds : Holds v)
    (here : data.drop pos = pushTag T_ATTRIBUTE T_ATTRIBUTE_EXT id ++ (bs ++ rest)) :
    Turns arith data ⟨pos, parent :: stack, none⟩
      ⟨pos + (pushTag T_ATTRIBUTE T_ATTRIBUTE_EXT id ++ bs).length,
        { parent with attrs := parent.attrs ++ [(id, v)] } :: stack, none⟩ := by
  refine ⟨tag_inside here, ?_⟩
  obtain ⟨kind, kinds, read⟩ := tag_takes exact short (show Forms _ _ 6 by simp [Forms]) here
  have notOpen : ¬(kind = 2 ∨ kind = 3) := by rcases kinds with rfl | rfl <;> decide
  have notClose : ¬(kind = 4 ∨ kind = 5) := by rcases kinds with rfl | rfl <;> decide
  have behind := value_takes exact short wrote holds (drop_append here)
  rw [turn, if_neg (by simp)]
  simp only [read, ok_bind]
  rw [if_neg notOpen, if_neg notClose, behind]
  simp only [ok_bind, List.length_append, Nat.add_assoc]

theorem reads_attrs {attrs : List (UInt32 × Value)} (stack : List Node) : ∀ (n : Node) {pos : ℕ}
    {bs rest : List UInt8}, pushAttrs attrs = .ok bs → (∀ a ∈ attrs, Holds a.2) →
      data.drop pos = bs ++ rest →
      ReflTransGen (Turns arith data) ⟨pos, n :: stack, none⟩
        ⟨pos + bs.length, { n with attrs := n.attrs ++ attrs } :: stack, none⟩ := by
  induction attrs with
  | nil =>
    intro n pos bs rest wrote _ _
    cases wrote
    simp only [List.append_nil, List.length_nil, Nat.add_zero]
    cases n
    exact .refl
  | cons a attrs ih =>
    intro n pos bs rest wrote holds here
    obtain ⟨id, v⟩ := a
    obtain ⟨value, first⟩ := pushValue_holds (holds _ List.mem_cons_self)
    obtain ⟨others, later⟩ := pushAttrs_fits fun b member => holds b (List.mem_cons_of_mem _ member)
    rw [pushAttrs, first, later] at wrote
    cases wrote
    rw [List.append_assoc, List.append_assoc] at here
    have one := turns_attribute exact short n stack first (holds _ List.mem_cons_self) here
    rw [← List.append_assoc] at here
    have rest_ := ih { n with attrs := n.attrs ++ [(id, v)] } later
      (fun b member => holds b (List.mem_cons_of_mem _ member)) (drop_append here)
    rw [List.append_assoc, List.singleton_append, Nat.add_assoc, ← List.length_append] at rest_
    exact .head one rest_

mutual
theorem reads : ∀ (n : Node) (stack : List Node) {pos : ℕ} {bs rest : List UInt8},
    written n = .ok bs → Fits n → height n + stack.length ≤ MAX_DEPTH → data.drop pos = bs ++ rest →
      ∃ placed, strip placed = strip n ∧
        ReflTransGen (Turns arith data) ⟨pos, stack, none⟩ (delivered (pos + bs.length) placed stack)
  | ⟨id, attrs, children, start, stop⟩, stack, pos, bs, rest, wrote, fits, shallow, here => by
    simp only [height] at shallow
    obtain ⟨a, first⟩ := pushAttrs_fits fits.1
    obtain ⟨c, later⟩ := writtenAll_fit fits.2
    rw [written, first, later] at wrote
    cases wrote
    simp only [List.append_assoc] at here
    have opening := turns_open exact short here (show stack.length < MAX_DEPTH by omega)
    have here := drop_append here
    have values := reads_attrs exact short stack ⟨id, [], [], pos, pos⟩ first fits.1 here
    have here := drop_append here
    obtain ⟨placed, same, inner⟩ := readsAll children ⟨id, [] ++ attrs, [], pos, pos⟩ stack later fits.2
      (by omega) here
    have here := drop_append here
    have closing := turns_close exact short ⟨id, [] ++ attrs, [] ++ placed, pos, pos⟩ stack here
    have whole := (ReflTransGen.head opening values).trans (inner.tail closing)
    simp only [Nat.add_assoc, ← List.length_append] at whole
    refine ⟨_, ?_, by simpa only [List.append_assoc] using whole⟩
    simp only [strip, List.nil_append, same]

theorem readsAll : ∀ (ns : List Node) (parent : Node) (stack : List Node) {pos : ℕ} {bs rest : List UInt8},
    writtenAll ns = .ok bs → AllFit ns → heights ns + (stack.length + 1) ≤ MAX_DEPTH →
      data.drop pos = bs ++ rest →
      ∃ placed, stripAll placed = stripAll ns ∧
        ReflTransGen (Turns arith data) ⟨pos, parent :: stack, none⟩
          ⟨pos + bs.length, { parent with children := parent.children ++ placed } :: stack, none⟩
  | [], parent, stack, pos, bs, rest, wrote, _, _, _ => by
    cases wrote
    refine ⟨[], rfl, ?_⟩
    simp only [List.append_nil, List.length_nil, Nat.add_zero]
    cases parent
    exact .refl
  | n :: ns, parent, stack, pos, bs, rest, wrote, fit, shallow, here => by
    simp only [heights] at shallow
    obtain ⟨a, first⟩ := written_fits fit.1
    obtain ⟨c, later⟩ := writtenAll_fit fit.2
    rw [writtenAll, first, later] at wrote
    cases wrote
    rw [List.append_assoc] at here
    obtain ⟨one, sameOne, before⟩ := reads n (parent :: stack) first fit.1
      (by simp only [List.length_cons]; omega) here
    obtain ⟨placed, same, after⟩ := readsAll ns
      { parent with children := parent.children ++ [one] } stack later fit.2 (by omega) (drop_append here)
    refine ⟨one :: placed, by rw [stripAll, stripAll, sameOne, same], before.trans ?_⟩
    rw [List.append_assoc, List.singleton_append, Nat.add_assoc, ← List.length_append] at after
    exact after
end

end

end E5r.SlaRoundTrip
