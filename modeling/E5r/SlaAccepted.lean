import E5r.SlaRoundTrip

/-!
# What the `.sla` decoder accepts

Every payload the decoder accepts gives a tree whose byte ranges nest in order and cover the
payload, and which the encoder writes again in no more bytes.
-/

namespace E5r.SlaAccepted

open Outcomes CheckedWords SlaTree SlaTokens SlaRoundTrip Relation

mutual
/-- The ranges of the children follow one another inside the element's own, all the way down. -/
def Nested : Node → Prop
  | ⟨_, _, children, start, stop⟩ => start < stop ∧ InOrder children start stop

def InOrder : List Node → ℕ → ℕ → Prop
  | [], lo, hi => lo ≤ hi
  | n :: ns, lo, hi => lo ≤ n.start ∧ Nested n ∧ InOrder ns n.stop hi
end

mutual
def ownLens : Node → ℕ
  | ⟨id, attrs, children, start, stop⟩ => Node.ownLen ⟨id, attrs, children, start, stop⟩ + ownLensAll children

def ownLensAll : List Node → ℕ
  | [] => 0
  | n :: ns => ownLens n + ownLensAll ns
end

variable {n : Node}

theorem nested_order (nested : Nested n) : n.start < n.stop := by
  obtain ⟨id, attrs, children, start, stop⟩ := n
  exact nested.1

variable {ns : List Node}

theorem inOrder_append : ∀ {lo : ℕ}, InOrder ns lo n.start → Nested n →
    InOrder (ns ++ [n]) lo n.stop := by
  induction ns with
  | nil => exact fun after nested => ⟨after, nested, le_rfl⟩
  | cons m ns ih => exact fun order nested => ⟨order.1, order.2.1, ih order.2.2 nested⟩

theorem inOrder_mono {hi hi' : ℕ} (more : hi ≤ hi') : ∀ {lo : ℕ}, InOrder ns lo hi →
    InOrder ns lo hi' := by
  induction ns with
  | nil => exact fun order => order.trans more
  | cons m ns ih => exact fun order => ⟨order.1, order.2.1, ih order.2.2⟩

theorem sum_len_le : ∀ {lo hi : ℕ}, InOrder ns lo hi →
    lo + (ns.map Node.len).sum ≤ hi := by
  induction ns with
  | nil => exact fun order => order
  | cons n ns ih =>
    rintro lo hi ⟨after, nested, later⟩
    have order := nested_order nested
    have rest := ih later
    simp only [List.map_cons, List.sum_cons, Node.len] at rest ⊢
    omega

mutual
theorem ownLens_eq : ∀ {n : Node}, Nested n → ownLens n = n.len
  | ⟨id, attrs, children, start, stop⟩, nested => by
    have inner := sum_len_le nested.2
    rw [ownLens, ownLensAll_eq nested.2]
    simp only [Node.ownLen, Node.len] at inner ⊢
    omega

theorem ownLensAll_eq : ∀ {ns : List Node} {lo hi : ℕ}, InOrder ns lo hi →
    ownLensAll ns = (ns.map Node.len).sum
  | [], _, _, _ => rfl
  | n :: ns, lo, hi, order => by
    rw [ownLensAll, ownLens_eq order.2.1, ownLensAll_eq order.2.2, List.map_cons, List.sum_cons]
end

/-- An element that is read up to a position, with how many are around it. -/
structure Part (n : Node) (p depth : ℕ) : Prop where
  begun : n.start < p
  ordered : InOrder n.children n.start p
  holds : ∀ a ∈ n.attrs, Holds a.2
  fit : AllFit n.children
  shallow : heights n.children + 1 + depth ≤ MAX_DEPTH
  small : ∃ a c, pushAttrs n.attrs = .ok a ∧ writtenAll n.children = .ok c ∧
    (pushTag T_ELEMENT_START T_ELEMENT_START_EXT n.id).length + a.length + c.length ≤ p - n.start

structure Whole (n : Node) (depth : ℕ) : Prop where
  nested : Nested n
  fits : Fits n
  shallow : height n + depth ≤ MAX_DEPTH
  small : ∃ bs, written n = .ok bs ∧ bs.length ≤ n.len

variable {bs : List UInt8}

theorem pushAttrs_append {attrs : List (UInt32 × Value)} {id : UInt32} {v : Value} (value : pushValue v = .ok bs) :
    ∀ {a : List UInt8}, pushAttrs attrs = .ok a →
      pushAttrs (attrs ++ [(id, v)]) = .ok (a ++ (pushTag T_ATTRIBUTE T_ATTRIBUTE_EXT id ++ bs)) := by
  induction attrs with
  | nil =>
    intro a wrote
    cases wrote
    simp only [List.nil_append, pushAttrs, value]
    show Except.ok _ = _
    rw [List.append_nil]
  | cons b attrs ih =>
    intro a wrote
    obtain ⟨id', w⟩ := b
    rw [pushAttrs] at wrote
    rw [List.cons_append, pushAttrs]
    cases first : pushValue w with
    | error e => rw [first] at wrote; cases wrote
    | ok x =>
      cases rest : pushAttrs attrs with
      | error e => rw [first, rest] at wrote; cases wrote
      | ok y =>
        rw [first, rest] at wrote
        cases wrote
        rw [ih rest]
        show Except.ok _ = _
        simp only [List.append_assoc]

theorem writtenAll_append (wrote : written n = .ok bs) :
    ∀ {c : List UInt8}, writtenAll ns = .ok c → writtenAll (ns ++ [n]) = .ok (c ++ bs) := by
  induction ns with
  | nil =>
    intro c before
    cases before
    rw [List.nil_append, writtenAll, wrote]
    show Except.ok _ = _
    rw [List.append_nil, List.nil_append]
  | cons m ns ih =>
    intro c before
    rw [writtenAll] at before
    rw [List.cons_append, writtenAll]
    cases first : written m with
    | error e => rw [first] at before; cases before
    | ok x =>
      cases rest : writtenAll ns with
      | error e => rw [first, rest] at before; cases before
      | ok y =>
        rw [first, rest] at before
        cases before
        rw [ih rest]
        show Except.ok _ = _
        simp only [List.append_assoc]

theorem allFit_append (fits : Fits n) : AllFit ns → AllFit (ns ++ [n]) := by
  induction ns with
  | nil => exact fun _ => ⟨fits, trivial⟩
  | cons m ns ih => exact fun fit => ⟨fit.1, ih fit.2⟩

theorem heights_append (ns : List Node) (n : Node) : heights (ns ++ [n]) = max (heights ns) (height n) := by
  induction ns with
  | nil => simp [heights]
  | cons m ns ih =>
    simp only [List.cons_append, heights, ih]
    omega

variable {p depth : ℕ}

theorem part_opened {id : UInt32} {next : ℕ} (order : p < next) (room : depth < MAX_DEPTH)
    (small : (pushTag T_ELEMENT_START T_ELEMENT_START_EXT id).length ≤ next - p) :
    Part ⟨id, [], [], p, p⟩ next depth where
  begun := order
  ordered := order.le
  holds := by simp
  fit := trivial
  shallow := by
    simp only [heights]
    omega
  small := ⟨[], [], rfl, rfl, by simpa using small⟩

theorem part_attribute {next : ℕ} {id : UInt32} {v : Value} (part : Part n p depth) (order : p < next)
    (holds : Holds v) (wrote : pushValue v = .ok bs)
    (small : (pushTag T_ATTRIBUTE T_ATTRIBUTE_EXT id).length + bs.length ≤ next - p) :
    Part { n with attrs := n.attrs ++ [(id, v)] } next depth where
  begun := part.begun.trans order
  ordered := inOrder_mono order.le part.ordered
  holds a member := by
    rcases List.mem_append.mp member with before | last
    · exact part.holds a before
    · rw [List.mem_singleton.mp last]
      exact holds
  fit := part.fit
  shallow := part.shallow
  small := by
    obtain ⟨a, c, attrs, children, few⟩ := part.small
    refine ⟨_, c, pushAttrs_append wrote attrs, children, ?_⟩
    have := part.begun
    simp only [List.length_append]
    omega

theorem part_child {done : Node} (part : Part n done.start depth) (whole : Whole done (depth + 1)) :
    Part { n with children := n.children ++ [done] } done.stop depth where
  begun := part.begun.trans (nested_order whole.nested)
  ordered := inOrder_append part.ordered whole.nested
  holds := part.holds
  fit := allFit_append whole.fits part.fit
  shallow := by
    have := part.shallow
    have := whole.shallow
    simp only [heights_append]
    omega
  small := by
    obtain ⟨a, c, attrs, children, few⟩ := part.small
    obtain ⟨bs, wrote, short⟩ := whole.small
    refine ⟨a, _, attrs, writtenAll_append wrote children, ?_⟩
    have := part.begun
    have := nested_order whole.nested
    simp only [Node.len] at short
    simp only [List.length_append]
    omega

theorem part_closed {next : ℕ} (part : Part n p depth) (order : p < next)
    (small : (pushTag T_ELEMENT_END T_ELEMENT_END_EXT n.id).length ≤ next - p) :
    Whole { n with stop := next } depth where
  nested := ⟨part.begun.trans order, inOrder_mono order.le part.ordered⟩
  fits := ⟨part.holds, part.fit⟩
  shallow := part.shallow
  small := by
    obtain ⟨a, c, attrs, children, few⟩ := part.small
    have := part.begun
    refine ⟨_, by rw [written, attrs, children]; rfl, ?_⟩
    simp only [List.length_append, Node.len]
    omega

/-- The elements that are open, each read up to where the next one starts. -/
def Standing : List Node → ℕ → Prop
  | [], p => p = 0
  | n :: outer, p => Part n p outer.length ∧ Standing outer n.start

def Invariant (s : State) : Prop :=
  match s.root with
  | none => Standing s.stack s.pos
  | some root => Whole root 0 ∧ root.start = 0 ∧ root.stop = s.pos

theorem delivered_invariant {done : Node} {stack : List Node} (whole : Whole done stack.length)
    (standing : Standing stack done.start) : Invariant (delivered done.stop done stack) := by
  cases stack with
  | nil => exact ⟨whole, standing, rfl⟩
  | cons parent stack => exact ⟨part_child standing.1 whole, standing.2⟩

inductive Turned (length : ℕ) : State → State → Prop where
  | opens {p next : ℕ} {stack : List Node} {id : UInt32} (order : p < next) (inside : next ≤ length)
      (room : stack.length < MAX_DEPTH)
      (small : (pushTag T_ELEMENT_START T_ELEMENT_START_EXT id).length ≤ next - p) :
      Turned length ⟨p, stack, none⟩ ⟨next, ⟨id, [], [], p, p⟩ :: stack, none⟩
  | closes {p next : ℕ} {done : Node} {stack : List Node} (order : p < next) (inside : next ≤ length)
      (small : (pushTag T_ELEMENT_END T_ELEMENT_END_EXT done.id).length ≤ next - p) :
      Turned length ⟨p, done :: stack, none⟩ (delivered next { done with stop := next } stack)
  | reads {p next : ℕ} {parent : Node} {stack : List Node} {id : UInt32} {v : Value} {bs : List UInt8}
      (order : p < next) (inside : next ≤ length) (holds : Holds v) (wrote : pushValue v = .ok bs)
      (small : (pushTag T_ATTRIBUTE T_ATTRIBUTE_EXT id).length + bs.length ≤ next - p) :
      Turned length ⟨p, parent :: stack, none⟩
        ⟨next, { parent with attrs := parent.attrs ++ [(id, v)] } :: stack, none⟩

theorem turned_forward {length : ℕ} {s s' : State} (turned : Turned length s s') :
    s.pos < s'.pos ∧ s'.pos ≤ length := by
  cases turned with
  | opens order inside => exact ⟨order, inside⟩
  | @closes p next done stack order inside => cases stack <;> exact ⟨order, inside⟩
  | reads order inside => exact ⟨order, inside⟩

theorem turned_invariant {length : ℕ} {s s' : State} (turned : Turned length s s')
    (before : Invariant s) : Invariant s' := by
  cases turned with
  | opens order _ room small => exact ⟨part_opened order room small, before⟩
  | closes order _ small => exact delivered_invariant (part_closed before.1 order small) before.2
  | reads order _ holds wrote small => exact ⟨part_attribute before.1 order holds wrote small, before.2⟩

section

variable {arith : Arith} (exact : Exact arith) {data : List UInt8} (short : data.length < 2 ^ 63)

include exact short

variable {s s' : State}

theorem turn_turned (turns : Turns arith data s s') : Turned data.length s s' := by
  obtain ⟨inside, turned⟩ := turns
  obtain ⟨pos, stack, root⟩ := s
  dsimp only at inside
  unfold turn at turned
  split at turned
  · cases turned
  next open_ =>
  cases root with
  | some root => exact absurd rfl open_
  | none =>
  obtain ⟨⟨kind, id, next⟩, read, turned⟩ := bind_ok_iff.mp turned
  obtain ⟨order, within, small⟩ := tag_ok exact short read
  dsimp only at turned
  split at turned
  · split at turned
    · cases turned
    next room =>
    cases turned
    exact .opens order within (by omega) (small _ _)
  split at turned
  · cases stack with
    | nil => cases turned
    | cons done stack =>
      dsimp only at turned
      split at turned
      · cases turned
      next same =>
      obtain rfl := not_not.mp same
      have : s' = delivered next { done with stop := next } stack := by
        cases stack <;> cases turned <;> rfl
      rw [this]
      exact .closes order within (small _ _)
  · obtain ⟨⟨v, last⟩, found, turned⟩ := bind_ok_iff.mp turned
    obtain ⟨further, within, holds, bs, wrote, few⟩ := value_ok exact short found
    cases stack with
    | nil => cases turned
    | cons parent stack =>
      cases turned
      have ids := small T_ATTRIBUTE T_ATTRIBUTE_EXT
      dsimp only at order ids
      exact .reads (order.trans further) within holds wrote (show _ ≤ last - pos by omega)

theorem runs_invariant (runs : ReflTransGen (Turns arith data) s s') (inside : s.pos ≤ data.length)
    (before : Invariant s) : s'.pos ≤ data.length ∧ Invariant s' := by
  induction runs with
  | refl => exact ⟨inside, before⟩
  | tail _ last ih =>
    have turned := turn_turned exact short last
    exact ⟨(turned_forward turned).2, turned_invariant turned ih.2⟩

theorem turns_of_runs (runs : ReflTransGen (Turns arith data) s s') (ends : data.length ≤ s'.pos) :
    ∀ fuel, data.length - s.pos ≤ fuel →
      turns arith data fuel s = finish s' := by
  induction runs using ReflTransGen.head_induction_on with
  | refl =>
    rintro (_ | fuel) _
    · rw [turns, if_neg (by omega)]
    · rw [turns, if_neg (by omega)]
  | head first _ ih =>
    have forward := turned_forward (turn_turned exact short first)
    rintro (_ | fuel) enough
    · have := first.1
      omega
    · rw [turns, if_pos first.1, first.2, ok_bind]
      exact ih fuel (by omega)

omit exact short in
theorem runs_of_turns {fuel : ℕ} : ∀ {s : State} {root : Node}, turns arith data fuel s = .ok root →
    ∃ s', ReflTransGen (Turns arith data) s s' ∧ data.length ≤ s'.pos ∧ finish s' = .ok root := by
  induction fuel with
  | zero =>
    intro s root ended
    rw [turns] at ended
    split at ended
    · cases ended
    · next done => exact ⟨s, .refl, by omega, ended⟩
  | succ fuel ih =>
    intro s root ended
    rw [turns] at ended
    split at ended
    · next inside =>
      obtain ⟨next, turned, ended⟩ := bind_ok_iff.mp ended
      obtain ⟨s', runs, over_, finished⟩ := ih ended
      exact ⟨s', .head ⟨inside, turned⟩ runs, over_, finished⟩
    · next done => exact ⟨s, .refl, by omega, ended⟩

end

theorem decode_written {arith : Arith} (exact : Exact arith) (wrote : written n = .ok bs) (fits : Fits n)
    (shallow : height n ≤ MAX_DEPTH) (short : bs.length < 2 ^ 63) :
    ∃ placed, decode arith bs = .ok placed ∧ strip placed = strip n := by
  obtain ⟨placed, same, runs⟩ := reads exact short n [] wrote fits
    (show height n + 0 ≤ MAX_DEPTH by omega) (show bs.drop 0 = bs ++ [] by simp)
  refine ⟨placed, ?_, same⟩
  have some_ : bs ≠ [] := by
    rintro rfl
    obtain ⟨id, attrs, children, start, stop⟩ := n
    obtain ⟨a, first⟩ := pushAttrs_fits fits.1
    obtain ⟨c, later⟩ := writtenAll_fit fits.2
    rw [written, first, later] at wrote
    have empty := Except.ok.inj wrote
    exact pushTag_ne_nil _ _ _ (List.append_eq_nil_iff.mp empty).2
  rw [decode, if_neg (by simpa using some_)]
  exact turns_of_runs exact short runs (by simp [delivered]) bs.length (by simp)

theorem encode_written (wrote : written n = .ok bs) (shallow : height n ≤ MAX_DEPTH) : encode n = .ok bs := by
  rw [encode, encodes [] 0 [] n (by omega), wrote]
  show encodeInto ([] ++ bs) 0 [] = _
  rw [encodeInto, List.nil_append]

/-- Trees of values that read back are written and read as themselves, up to their byte ranges,
unless they are too deep, which is refused. Of a payload that the decoder accepts, the byte ranges
of the elements nest in order from its first byte to its last, what the elements occupy themselves
adds up to all of it, and the tree is written and read again as itself. -/
theorem codec_laws {arith : Arith} (exact : Exact arith) :
    (∀ n, Fits n → height n ≤ MAX_DEPTH → ∃ bs, encode n = .ok bs ∧
      (bs.length < 2 ^ 63 → ∃ m, decode arith bs = .ok m ∧ strip m = strip n)) ∧
    (∀ n, MAX_DEPTH < height n → ∃ e, encode n = .error e ∧ (Fits n → e = .tooDeep)) ∧
    (∀ data n, data.length < 2 ^ 63 → decode arith data = .ok n →
      n.start = 0 ∧ n.stop = data.length ∧ Nested n ∧ ownLens n = data.length ∧
        ∃ bs m, encode n = .ok bs ∧ decode arith bs = .ok m ∧ strip m = strip n) := by
  refine ⟨fun n fits shallow => ?_, fun n deep => ?_, fun data n short accepted => ?_⟩
  · obtain ⟨bs, wrote⟩ := written_fits fits
    exact ⟨bs, encode_written wrote shallow, decode_written exact wrote fits shallow⟩
  · exact refuses [] 0 [] n deep
  · rw [decode] at accepted
    split at accepted
    · cases accepted
    obtain ⟨s, runs, ends, finished⟩ := runs_of_turns accepted
    obtain ⟨inside, holds⟩ := runs_invariant exact short runs (Nat.zero_le _) (show Invariant ⟨0, [], none⟩ from rfl)
    obtain ⟨pos, stack, root⟩ := s
    cases root with
    | none => cases finished
    | some root =>
      cases finished
      obtain ⟨whole, start, stop⟩ := holds
      dsimp only at stop ends inside
      have all : n.stop = data.length := by omega
      have own := ownLens_eq whole.nested
      rw [Node.len, start, all] at own
      obtain ⟨bs, wrote, few⟩ := whole.small
      rw [Node.len, start, all] at few
      obtain ⟨m, read, same⟩ := decode_written exact wrote whole.fits whole.shallow (by omega)
      exact ⟨start, all, whole.nested, own, bs, m, encode_written wrote whole.shallow, read, same⟩

def small : Node := ⟨1, [(2, .signed (-5))], [⟨3, [], [], 0, 0⟩], 0, 0⟩

theorem small_reads_back : ∃ m, decode wrapping [0x41, 0xc2, 0x31, 0x85, 0x43, 0x83, 0x81] = .ok m ∧
    strip m = strip small := by
  have fits : Fits small := by simp [small, Fits, AllFit, Holds]
  obtain ⟨bs, wrote, back⟩ := (codec_laws exact_wrapping).1 small fits (by decide)
  have expected : written small = .ok [0x41, 0xc2, 0x31, 0x85, 0x43, 0x83, 0x81] := by
    simp [small, written, writtenAll, pushAttrs, pushValue, pushTyped, chunkCount, pushChunks, pushTag]
    decide
  rw [encode_written expected (by decide)] at wrote
  cases wrote
  exact back (by decide)

end E5r.SlaAccepted
