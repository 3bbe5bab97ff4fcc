import E5r.Intervals
import E5r.SsaModel

/-!
# Range analysis

The interval of every value of a function, and the runs in which the values lie in their
intervals: those whose numbers nowhere leave the width they are kept at.
-/

namespace E5r.RangeAnalysis

open IrModel ConstantFold SsaModel Intervals

/-! ### The analysis -/

/-- The interval one operand can take. -/
def rangeOf (operand : Operand) (known : Value → Option Range) : Range :=
  match operand with
  | .const v size =>
    let bits := min (size * 8) 64
    if bits = 64 then .exact (asI64 v.toNat) else .exact (asI64 (shl64 v.toNat (64 - bits)) >>> (64 - bits))
  | .value v => (known v).getD .any
  | .undefined _ => .any

def firstRange (op : SsaOp) (known : Value → Option Range) : Range :=
  (op.inputs[0]?.map fun i => rangeOf i known).getD .any

def secondRange (op : SsaOp) (known : Value → Option Range) : Range :=
  (op.inputs[1]?.map fun i => rangeOf i known).getD .any

def literal (op : SsaOp) : Option ℕ := op.inputs[1]?.bind Operand.asConst

/-- The size of the first operand. -/
def from_ (op : SsaOp) : ℕ := (op.inputs[0]?.map Operand.size).getD op.size

/-- The interval of an operation that is no merge. -/
def evaluateBasic (o : Op) (op : SsaOp) (known : Value → Option Range) : Range :=
  let a := firstRange op known
  let b := secondRange op known
  match o with
  | .copy => a
  | .intAdd => a.add b
  | .intSub => a.sub b
  | .intMul => a.mul b
  | .intAnd =>
    match literal op with
    | some mask => if mask < 2 ^ 63 then if 0 ≤ a.low then .new 0 (min a.high mask) else .new 0 mask else .any
    | none => .any
  | .intOr | .intXor => .any
  | .intLeft =>
    match literal op with
    | some n => if n < 62 then a.mul (.exact (2 ^ n)) else .any
    | none => .any
  | .intRight =>
    match literal op with
    | some n => if n < 64 ∧ 0 ≤ a.low then .new (a.low >>> n) (a.high >>> n) else .unsigned op.size
    | none => .unsigned op.size
  | .intSRight =>
    match literal op with
    | some n => if n < 64 then .new (a.low >>> n) (a.high >>> n) else .any
    | none => .any
  | .intZExt => if 0 ≤ a.low then .new 0 (max a.high 0) else .unsigned (from_ op)
  | .intSExt => a.reinterpretSigned (from_ op)
  | .subPiece =>
    match literal op with
    | some 0 => if 0 ≤ a.low ∧ (Range.unsigned op.size).contains a.high then .new 0 a.high else .unsigned op.size
    | _ => .unsigned op.size
  | .load => .unsigned op.size
  | .intEqual | .intNotEqual | .intLess | .intLessEqual | .intSLess | .intSLessEqual | .intCarry | .intSCarry | .intSBorrow
  | .boolAnd | .boolOr | .boolXor | .boolNot => .new 0 1
  | .popCount | .lzCount => .new 0 64
  | .intDiv | .intRem => if 0 ≤ a.low then .new 0 a.high else .any
  | _ => .any

def evaluate (op : SsaOp) (known : Value → Option Range) : Range :=
  match op.kind with
  | .phi =>
    match op.inputs.map fun i => rangeOf i known with
    | [] => .any
    | r :: rest => rest.foldl Range.join r
  | .op (.basic o) => evaluateBasic o op known
  | .op (.float o) =>
    match o with
    | .floatEqual | .floatNotEqual | .floatLess | .floatLessEqual | .floatNan => .new 0 1
    | _ => .any

/-- One operation of a round; the last round gives up on what still moves. -/
def visit (last : Bool) (state : (Value → Option Range) × Bool) (op : SsaOp) : (Value → Option Range) × Bool :=
  match op.out with
  | none => state
  | some v =>
    match state.1 v with
    | none => (Function.update state.1 v (some (evaluate op state.1)), true)
    | some previous =>
      let computed := if last ∧ previous ≠ evaluate op state.1 then .any else evaluate op state.1
      let joined := previous.join computed
      if joined ≠ previous then (Function.update state.1 v (some joined), true) else state

def rounds (f : SsaFunction) : ℕ → (Value → Option Range) → Value → Option Range
  | 0, known => known
  | left + 1, known =>
    let (known, changed) := f.ops.foldl (visit (left = 0)) (known, false)
    if changed then rounds f left known else known

/-- The interval of every value in a function. -/
def ranges (f : SsaFunction) : Value → Option Range := rounds f 8 fun _ => none

/-! ### Rounds -/

/-- What is known stays known, and intervals only widen. -/
def Grows (known later : Value → Option Range) : Prop :=
  ∀ v r, known v = some r → ∃ s, later v = some s ∧ r.Within s

theorem Grows.refl (known : Value → Option Range) : Grows known known :=
  fun _ r found => ⟨r, found, Int.le_refl _, Int.le_refl _⟩

theorem Grows.trans {known later last : Value → Option Range} (first : Grows known later) (second : Grows later last) :
    Grows known last := by
  intro v r found
  obtain ⟨s, found, within⟩ := first v r found
  obtain ⟨t, found, within'⟩ := second v s found
  exact ⟨t, found, within.trans within'⟩

theorem grows_visit (last : Bool) (state : (Value → Option Range) × Bool) (op : SsaOp) :
    Grows state.1 (visit last state op).1 := by
  intro v r found
  have kept : ∃ s, state.1 v = some s ∧ r.Within s := Grows.refl state.1 v r found
  unfold visit
  split
  · exact kept
  · rename_i out _
    split
    · rename_i unknown
      have other : v ≠ out := by
        rintro rfl
        cases unknown.symm.trans found
      show ∃ s, Function.update state.1 out _ v = some s ∧ r.Within s
      rw [Function.update_of_ne other]
      exact kept
    · rename_i previous known
      generalize (if last ∧ previous ≠ evaluate op state.1 then Range.any else evaluate op state.1) = computed
      simp only
      split
      · show ∃ s, Function.update state.1 out _ v = some s ∧ r.Within s
        by_cases same : v = out
        · subst same
          cases known.symm.trans found
          rw [Function.update_self]
          exact ⟨_, rfl, Range.within_join_left _ _⟩
        · rw [Function.update_of_ne same]
          exact kept
      · exact kept

theorem grows_visits (last : Bool) (ops : List SsaOp) (state : (Value → Option Range) × Bool) :
    Grows state.1 (ops.foldl (visit last) state).1 := by
  induction ops generalizing state with
  | nil => exact Grows.refl _
  | cons op ops ih => exact (grows_visit last state op).trans (ih _)

theorem grows_rounds (f : SsaFunction) (left : ℕ) (known : Value → Option Range) : Grows known (rounds f left known) := by
  induction left generalizing known with
  | zero => exact Grows.refl _
  | succ left ih =>
    have first := grows_visits (decide (left = 0)) f.ops (known, false)
    unfold rounds
    simp only
    split
    · exact first.trans (ih _)
    · exact first

/-- Each value has the interval of its operation, worked out where every other value was
    unknown or had the interval it has. -/
def Settled (ops : List SsaOp) (known : Value → Option Range) : Prop :=
  ∀ op ∈ ops, ∀ v, op.out = some v → ∃ then_, known v = some (evaluate op then_) ∧ ∀ u, then_ u = none ∨ then_ u = known u

theorem settled_visits (ops : List SsaOp) (single : (outsOf ops).Nodup) (state : (Value → Option Range) × Bool)
    (fresh : ∀ v ∈ outsOf ops, state.1 v = none) :
    (∀ v, v ∉ outsOf ops → (ops.foldl (visit false) state).1 v = state.1 v) ∧
      Settled ops (ops.foldl (visit false) state).1 := by
  induction ops generalizing state with
  | nil => exact ⟨fun _ _ => rfl, fun _ there => by cases there⟩
  | cons op ops ih =>
    rw [List.foldl_cons]
    cases out : op.out with
    | none =>
      have same : outsOf (op :: ops) = outsOf ops := by rw [outsOf, List.filterMap_cons_none out]; rfl
      rw [same] at single fresh ⊢
      have visited : visit false state op = state := by
        unfold visit
        rw [out]
      rw [visited]
      obtain ⟨others, settled⟩ := ih single state fresh
      refine ⟨others, fun p there v outP => ?_⟩
      rcases List.mem_cons.mp there with rfl | there
      · cases out.symm.trans outP
      · exact settled p there v outP
    | some v =>
      have split : outsOf (op :: ops) = v :: outsOf ops := by rw [outsOf, List.filterMap_cons_some out]; rfl
      rw [split] at single fresh ⊢
      obtain ⟨new, single⟩ := List.nodup_cons.mp single
      have visited : (visit false state op).1 = Function.update state.1 v (some (evaluate op state.1)) := by
        unfold visit
        rw [out]
        simp only [fresh v List.mem_cons_self]
      obtain ⟨others, settled⟩ := ih single (visit false state op) fun u there => by
        rw [visited, Function.update_of_ne (by rintro rfl; exact new there)]
        exact fresh u (List.mem_cons_of_mem v there)
      constructor
      · intro u absent
        rw [List.mem_cons, not_or] at absent
        rw [others u absent.2, visited, Function.update_of_ne absent.1]
      · intro p there u outP
        rcases List.mem_cons.mp there with rfl | there
        · cases out.symm.trans outP
          refine ⟨state.1, ?_, fun w => ?_⟩
          · rw [others v new, visited, Function.update_self]
          · by_cases later : w ∈ v :: outsOf ops
            · exact .inl (fresh w later)
            · rw [List.mem_cons, not_or] at later
              rw [others w later.2, visited, Function.update_of_ne later.1]
              exact .inr rfl
        · exact settled p there u outP

theorem ranges_settled (f : SsaFunction) : ∃ known, Settled f.ops known ∧ Grows known (ranges f) := by
  refine ⟨(f.ops.foldl (visit false) (fun _ => none, false)).1, (settled_visits f.ops f.single _ fun _ _ => rfl).2, ?_⟩
  have unfolded : ranges f = if (f.ops.foldl (visit false) (fun _ => none, false)).2 then
      rounds f 7 (f.ops.foldl (visit false) (fun _ => none, false)).1
    else (f.ops.foldl (visit false) (fun _ => none, false)).1 := rfl
  rw [unfolded]
  split
  · exact grows_rounds f 7 _
  · exact Grows.refl _

/-! ### Runs -/

/-- What a value holds: its bits, and the number its operation worked out. -/
structure Cell where
  bits : ℕ
  number : ℤ
  deriving DecidableEq

abbrev State := Value → Option Cell

/-- What reading an operand can give: a literal is read as signed, and whatever the function
    did not define is arbitrary. -/
inductive Gives (state : State) : Operand → Cell → Prop
  | value {v : Value} {c : Cell} : state v = some c → Gives state (.value v) c
  | const {v : UInt64} {size : ℕ} : 0 < size →
    Gives state (.const v size) ⟨v.toNat &&& mask size, sext (v.toNat &&& mask size) size⟩
  | undefined {l : Location} {bits : ℕ} {z : ℤ} : bits < bound l.size → Reads l.size bits z →
    Gives state (.undefined l) ⟨bits, z⟩

def isTruth : FloatOp → Bool
  | .floatEqual | .floatNotEqual | .floatLess | .floatLessEqual | .floatNan => true
  | _ => false

/-- What an operation can leave. Memory, and floating point results other than truths, are
    arbitrary. -/
inductive Works : Operation → List (ℕ × ℕ) → ℕ → Prop
  | computed {o : Op} {inputs : List (ℕ × ℕ)} {x : ℕ} : compute o inputs = .value x → Works (.basic o) inputs x
  | arbitrary {o : Op} {inputs : List (ℕ × ℕ)} {x : ℕ} : compute o inputs = .nothing → Works (.basic o) inputs x
  | float {o : FloatOp} {inputs : List (ℕ × ℕ)} {x : ℕ} : (isTruth o → x ≤ 1) → Works (.float o) inputs x

def kept (op : SsaOp) (v : Value) (x : ℕ) : ℕ := x &&& mask op.size &&& mask v.location.size

def bitsAt (cells : List Cell) (n : ℕ) : ℕ := (cells[n]?.map Cell.bits).getD 0

def numberAt (cells : List Cell) (n : ℕ) : ℤ := (cells[n]?.map Cell.number).getD 0

/-- The number an operation works out from those of its operands, before it is cut to its
    width: sums and the like without wrapping, and the natural reading of the bits where the
    operation is one on bits. -/
def exact (o : Operation) (op : SsaOp) (cells : List Cell) (size bits : ℕ) : ℤ :=
  let a := numberAt cells 0
  let b := numberAt cells 1
  match o with
  | .basic .copy => a
  | .basic .intAdd => if Fits (a + b) then a + b else natural size bits
  | .basic .intSub => if Fits (a - b) then a - b else natural size bits
  | .basic .intMul => if Fits (a * b) then a * b else natural size bits
  | .basic .intLeft =>
    match literal op with
    | some n => if n < 62 ∧ Fits (a * 2 ^ n) then a * 2 ^ n else natural size bits
    | none => natural size bits
  | .basic .intRight =>
    match literal op with
    | some n => if n < 64 ∧ 0 ≤ a then a >>> n else natural size bits
    | none => natural size bits
  | .basic .intSRight =>
    match literal op with
    | some n => if n < 64 then a >>> n else natural size bits
    | none => natural size bits
  | .basic .intSExt => sext (bitsAt cells 0) (from_ op)
  | _ => natural size bits

/-- One operation of a block; its merges read what held when the block was entered. -/
inductive Executes (op : SsaOp) (entered state : State) : State → Prop
  | quiet : op.out = none → Executes op entered state state
  | merge {v : Value} {i : Operand} {c : Cell} : op.kind = .phi → op.out = some v → i ∈ op.inputs → Gives entered i c →
    Executes op entered state (Function.update state v (some ⟨kept op v c.bits, c.number⟩))
  | work {o : Operation} {v : Value} {cells : List Cell} {x : ℕ} : op.kind = .op o → op.out = some v →
    List.Forall₂ (Gives state) op.inputs cells →
    Works o (List.zipWith (fun c i => (c.bits, i.size)) cells op.inputs) x →
    Executes op entered state
      (Function.update state v (some ⟨kept op v x, exact o op cells v.location.size (kept op v x)⟩))

/-- The runs of a function in which everything an operation leaves meets a condition: the
    block, the operation that is next, what held when the block was entered, and what holds. -/
inductive Run (f : SsaFunction) (meets : Value → Cell → Prop) : ℕ → ℕ → State → State → Prop
  | start : Run f meets f.entry 0 (fun _ => none) (fun _ => none)
  | step {a n : ℕ} {entered state next : State} {b : SsaBlock} {op : SsaOp} : Run f meets a n entered state →
    f.get a = some b → b.ops[n]? = some op → Executes op entered state next →
    (∀ v c, op.out = some v → next v = some c → meets v c) → Run f meets a (n + 1) entered next
  | jump {a n s : ℕ} {entered state : State} {b : SsaBlock} : Run f meets a n entered state → f.get a = some b →
    n = b.ops.length → s ∈ b.successors → Run f meets s 0 state state

/-- The number an operation works out is one its bits can be read as. -/
def Faithful (v : Value) (c : Cell) : Prop := Reads v.location.size c.bits c.number

/-- The interval holds the bits as they are read as signed or, below eight bytes, as
    unsigned. -/
def Holds (r : Range) (size bits : ℕ) : Prop := r.contains (sext bits size) ∨ size < 8 ∧ r.contains bits

/-! ### One operation -/

structure Known (known : Value → Option Range) (i : Operand) (c : Cell) : Prop where
  inside : (rangeOf i known).contains c.number
  reads : Reads i.size c.bits c.number
  small : c.bits < bound i.size
  literal : ∀ n, i.asConst = some n → c.bits ≤ n

section Operations

variable {op : SsaOp} {known : Value → Option Range} {cells : List Cell} {size bits x : ℕ}

theorem zero_any : Range.any.contains 0 := Range.contains_any ⟨by decide, by decide⟩

theorem first_known (all : List.Forall₂ (Known known) op.inputs cells) :
    (firstRange op known).contains (numberAt cells 0) ∧ (0 ≤ numberAt cells 0 → numberAt cells 0 = bitsAt cells 0) ∧
      bitsAt cells 0 < bound (from_ op) ∧ Fits (numberAt cells 0) := by
  unfold firstRange numberAt bitsAt from_
  generalize op.inputs = inputs at all ⊢
  cases all with
  | nil => exact ⟨zero_any, fun _ => rfl, bound_pos _, by decide, by decide⟩
  | cons first rest => exact ⟨first.inside, first.reads.eq_bits first.small, first.small, first.reads.fits first.small⟩

theorem first_signed (all : List.Forall₂ (Known known) op.inputs cells) :
    ((firstRange op known).reinterpretSigned (from_ op)).contains (sext (bitsAt cells 0) (from_ op)) := by
  unfold firstRange bitsAt from_
  generalize op.inputs = inputs at all ⊢
  cases all with
  | nil =>
    show (Range.any.reinterpretSigned op.size).contains (sext 0 op.size)
    by_cases none : op.size = 0
    · rw [none]
      decide
    · refine reinterpretSigned_contains (z := 0) ⟨by omega, .inl (sext_zero _).symm⟩ (bound_pos _) zero_any
  | cons first rest => exact reinterpretSigned_contains first.reads first.small first.inside

theorem second_known (all : List.Forall₂ (Known known) op.inputs cells) :
    (secondRange op known).contains (numberAt cells 1) ∧ ∀ n, literal op = some n → bitsAt cells 1 ≤ n := by
  unfold secondRange numberAt bitsAt literal
  generalize op.inputs = inputs at all ⊢
  cases all with
  | nil => exact ⟨zero_any, fun n found => by cases found⟩
  | cons first rest =>
    cases rest with
    | nil => exact ⟨zero_any, fun n found => by cases found⟩
    | cons second rest => exact ⟨second.inside, fun n found => second.literal n found⟩

theorem input_eq (all : List.Forall₂ (Known known) op.inputs cells) (n : ℕ) :
    (((List.zipWith (fun c i => (c.bits, i.size)) cells op.inputs)[n]?.map fun i : ℕ × ℕ => i.1)).getD 0 = bitsAt cells n := by
  unfold bitsAt
  generalize op.inputs = inputs at all ⊢
  induction all generalizing n with
  | nil => rfl
  | cons first rest ih =>
    cases n with
    | zero => rfl
    | succ n => exact ih n

theorem countOnes_le (x : ℕ) : countOnes x ≤ 64 := by
  have := List.countP_le_length (p := fun i => x.testBit i) (l := List.range 64)
  rwa [List.length_range] at this

theorem leadingZeros_le (x : ℕ) : leadingZeros x ≤ 64 := by
  unfold leadingZeros
  split <;> omega

theorem low_contains {m : ℤ} (small : bits < bound size) (low : bits < 2 ^ 63) (last : (bits : ℤ) ≤ m) :
    (Range.new 0 m).contains (natural size bits) := by
  rw [natural_eq small low]
  exact Range.contains_new (by omega) last

/-- The interval of an operation holds the number it works out. -/
theorem evaluateBasic_contains {o : Op} {bits : ℕ} (all : List.Forall₂ (Known known) op.inputs cells)
    (works : Works (.basic o) (List.zipWith (fun c i => (c.bits, i.size)) cells op.inputs) x)
    (less : bits ≤ x) (short : bits < bound op.size) (small : bits < bound size)
    (faithful : Reads size bits (exact (.basic o) op cells size bits)) :
    (evaluateBasic o op known).contains (exact (.basic o) op cells size bits) := by
  obtain ⟨inside, positive, smallX, fitsA⟩ := first_known all
  obtain ⟨insideB, literalB⟩ := second_known all
  have inputX := input_eq all 0
  have inputY := input_eq all 1
  have anyNatural : Range.any.contains (natural size bits) := Range.contains_any (natural_fits small)
  have unsignedNatural : (Range.unsigned op.size).contains (natural size bits) :=
    unsigned_contains short (natural_fits small) (natural_eq small)
  have computed : ∀ {y}, compute o (List.zipWith (fun c i => (c.bits, i.size)) cells op.inputs) = .value y → x = y := by
    intro y value
    cases works with
    | computed same =>
      cases same.symm.trans value
      rfl
    | arbitrary nothing => cases nothing.symm.trans value
  have runs : compute o (List.zipWith (fun c i => (c.bits, i.size)) cells op.inputs) ≠ .divideByZero := by
    intro stopped
    cases works with
    | computed same => cases same.symm.trans stopped
    | arbitrary nothing => cases nothing.symm.trans stopped
  unfold compute at computed runs
  simp only [inputX, inputY] at computed runs
  cases o
  case copy => exact inside
  case intAdd =>
    have sum := Range.contains_add inside insideB
    simp only [evaluateBasic, exact]
    split
    · rwa [if_pos ‹_›] at sum
    · rw [if_neg ‹_›] at sum
      rwa [sum]
  case intSub =>
    have difference := Range.contains_sub inside insideB
    simp only [evaluateBasic, exact]
    split
    · rwa [if_pos ‹_›] at difference
    · rw [if_neg ‹_›] at difference
      rwa [difference]
  case intMul =>
    have product := Range.contains_mul inside insideB
    simp only [evaluateBasic, exact]
    split
    · rwa [if_pos ‹_›] at product
    · rw [if_neg ‹_›] at product
      rwa [product]
  case intAnd =>
    have same : x = bitsAt cells 0 &&& bitsAt cells 1 := computed rfl
    have first : x ≤ bitsAt cells 0 := by
      rw [same]
      exact Nat.and_le_left
    simp only [evaluateBasic, exact]
    split
    · rename_i m constant
      have second : x ≤ m := by
        rw [same]
        exact Nat.le_trans Nat.and_le_right (literalB m constant)
      split
      · split
        · have := positive (Int.le_trans ‹_› inside.1)
          have := inside.2
          exact low_contains small (by omega) (by omega)
        · exact low_contains small (by omega) (by omega)
      · exact anyNatural
    · exact anyNatural
  case intLeft =>
    simp only [evaluateBasic, exact]
    split
    · rename_i n constant
      have product := Range.contains_mul (b := 2 ^ n) (s := .exact (2 ^ n)) inside ⟨Int.le_refl _, Int.le_refl _⟩
      by_cases few : n < 62
      · by_cases fits : Fits (numberAt cells 0 * 2 ^ n)
        · rw [if_pos fits] at product
          rwa [if_pos few, if_pos ⟨few, fits⟩]
        · rw [if_neg fits] at product
          rw [if_pos few, if_neg fun both => fits both.2, product]
          exact anyNatural
      · rw [if_neg few, if_neg fun both => few both.1]
        exact anyNatural
    · exact anyNatural
  case intRight =>
    simp only [evaluateBasic, exact] at faithful ⊢
    split
    · rename_i n constant
      rw [constant] at faithful
      simp only at faithful
      by_cases shifted : n < 64 ∧ 0 ≤ (firstRange op known).low
      · have : 0 ≤ numberAt cells 0 := Int.le_trans shifted.2 inside.1
        rw [if_pos shifted, if_pos ⟨shifted.1, this⟩]
        exact shiftRight_contains n inside
      · rw [if_neg shifted]
        split
        · rename_i both
          rw [if_pos both] at faithful
          have lower : 0 ≤ numberAt cells 0 >>> n := by
            rw [Int.shiftRight_eq_div_pow]
            exact Int.ediv_nonneg both.2 (by positivity)
          exact unsigned_contains short (faithful.fits small) fun _ => faithful.eq_bits small lower
        · exact unsignedNatural
    · exact unsignedNatural
  case intSRight =>
    simp only [evaluateBasic, exact]
    split
    · rename_i n constant
      split
      · exact shiftRight_contains n inside
      · exact anyNatural
    · exact anyNatural
  case intZExt =>
    have same : x = bitsAt cells 0 := computed rfl
    simp only [evaluateBasic, exact]
    split
    · have := positive (Int.le_trans ‹_› inside.1)
      have := inside.2
      have := fitsA.2
      exact low_contains small (by omega) (by omega)
    · exact unsigned_contains (by omega) (natural_fits small) (natural_eq small)
  case intSExt =>
    exact first_signed all
  case subPiece =>
    have same : x = shr64 (bitsAt cells 0) (bitsAt cells 1 * 8 % 2 ^ 64) := computed rfl
    have first : x ≤ bitsAt cells 0 := by
      rw [same, shr64, Nat.shiftRight_eq_div_pow]
      exact Nat.div_le_self _ _
    simp only [evaluateBasic, exact]
    split
    · split
      · rename_i both
        have := positive (Int.le_trans both.1 inside.1)
        have := inside.2
        have := fitsA.2
        exact low_contains small (by omega) (by omega)
      · exact unsignedNatural
    · exact unsignedNatural
  case load => exact unsignedNatural
  case popCount =>
    have same : x = countOnes (bitsAt cells 0) := computed rfl
    have := countOnes_le (bitsAt cells 0)
    exact low_contains small (by omega) (by omega)
  case lzCount =>
    have most : x ≤ 64 := by
      rw [computed rfl]
      exact leadingZeros_le _
    exact low_contains small (by omega) (by omega)
  case intDiv =>
    simp only [evaluateBasic, exact]
    split
    · have := positive (Int.le_trans ‹_› inside.1)
      have := inside.2
      have := fitsA.2
      have first : x ≤ bitsAt cells 0 := by
        rw [computed (if_neg fun zero => runs (if_pos zero))]
        exact Nat.div_le_self _ _
      exact low_contains small (by omega) (by omega)
    · exact anyNatural
  case intRem =>
    simp only [evaluateBasic, exact]
    split
    · have := positive (Int.le_trans ‹_› inside.1)
      have := inside.2
      have := fitsA.2
      have first : x ≤ bitsAt cells 0 := by
        rw [computed (if_neg fun zero => runs (if_pos zero))]
        exact Nat.mod_le _ _
      exact low_contains small (by omega) (by omega)
    · exact anyNatural
  case intEqual | intNotEqual | intLess | intLessEqual | intSLess | intSLessEqual | intCarry | intSCarry | intSBorrow
    | boolAnd | boolOr | boolXor | boolNot =>
    have truth : x ≤ 1 := by
      rw [computed rfl]
      exact Bool.toNat_le _
    exact low_contains small (by omega) (by omega)
  all_goals exact anyNatural

end Operations

/-! ### Whole runs -/

/-- What holds of the values of a run: each has the number its bits are read as, in the
    interval that is known of it. -/
def Inside (known : Value → Option Range) (state : State) : Prop :=
  ∀ v c, state v = some c → Reads v.location.size c.bits c.number ∧ c.bits < bound v.location.size ∧
    ∃ r, known v = some r ∧ r.contains c.number

theorem kept_le (op : SsaOp) (v : Value) (x : ℕ) : kept op v x ≤ x :=
  Nat.le_trans Nat.and_le_left Nat.and_le_left

theorem kept_short (op : SsaOp) (v : Value) (x : ℕ) : kept op v x < bound op.size := by
  refine Nat.lt_of_le_of_lt Nat.and_le_left ?_
  rw [and_mask_eq]
  exact Nat.mod_lt _ (bound_pos _)

theorem kept_small (op : SsaOp) (v : Value) (x : ℕ) : kept op v x < bound v.location.size := by
  rw [kept, and_mask_eq]
  exact Nat.mod_lt _ (bound_pos _)

theorem literal_known {known : Value → Option Range} {v : UInt64} {size : ℕ} (some_ : 0 < size) :
    Known known (.const v size) ⟨v.toNat &&& mask size, sext (v.toNat &&& mask size) size⟩ := by
  have small : v.toNat &&& mask size < bound size := by
    rw [and_mask_eq]
    exact Nat.mod_lt _ (bound_pos _)
  refine ⟨?_, ⟨some_, .inl rfl⟩, small, fun n same => ?_⟩
  · have word := v.toNat_lt
    have exact_ : rangeOf (.const v size) known = .exact (sext (v.toNat &&& mask size) size) := by
      unfold rangeOf
      by_cases wide : 8 ≤ size
      · simp only [Nat.min_eq_right (show 64 ≤ size * 8 by omega), if_true]
        rw [and_mask_eq, bound, Nat.min_eq_right wide, Nat.mod_eq_of_lt word, sext, if_neg (by omega), if_neg (by omega)]
      · simp only [Nat.min_eq_left (show size * 8 ≤ 64 by omega), if_neg (show ¬size * 8 = 64 by omega)]
        have power : bound size = 256 ^ size := by
          rw [bound, Nat.min_eq_left (by omega), pow_mul]
          norm_num
        rw [and_mask_eq, power, sext_mod word some_, sext, if_neg (by omega), if_pos (by omega)]
    rw [exact_]
    exact ⟨Int.le_refl _, Int.le_refl _⟩
  · cases same
    exact Nat.and_le_left

theorem gives_known {known then_ : Value → Option Range} {state : State} {i : Operand} {c : Cell}
    (inside : Inside known state) (before : ∀ u, then_ u = none ∨ then_ u = known u) (gives : Gives state i c) :
    Known then_ i c := by
  cases gives with
  | @value v _ holds =>
    obtain ⟨reads, small, r, found, contained⟩ := inside v c holds
    refine ⟨?_, reads, small, fun n same => by cases same⟩
    unfold rangeOf
    rcases before v with unknown | same
    · simp only [unknown, Option.getD_none]
      exact Range.contains_any (reads.fits small)
    · simp only [same, found, Option.getD_some]
      exact contained
  | const some_ => exact literal_known some_
  | undefined small reads => exact ⟨Range.contains_any (reads.fits small), reads, small, fun n same => by cases same⟩

theorem contains_joins {r s : Range} {z : ℤ} (rest : List Range) (inside : r.contains z ∨ s ∈ rest ∧ s.contains z) :
    (rest.foldl Range.join r).contains z := by
  induction rest generalizing r with
  | nil =>
    rcases inside with inside | ⟨there, -⟩
    · exact inside
    · cases there
  | cons t rest ih =>
    refine ih ?_
    rcases inside with inside | ⟨there, inside⟩
    · exact .inl (Range.contains_of_within (Range.within_join_left r t) inside)
    · rcases List.mem_cons.mp there with rfl | there
      · exact .inl (Range.contains_of_within (Range.within_join_right r s) inside)
      · exact .inr ⟨there, inside⟩

theorem evaluate_merge {op : SsaOp} {known : Value → Option Range} {i : Operand} {z : ℤ} (merge : op.kind = .phi)
    (there : i ∈ op.inputs) (inside : (rangeOf i known).contains z) : (evaluate op known).contains z := by
  unfold evaluate
  rw [merge]
  simp only
  have mapped : rangeOf i known ∈ op.inputs.map fun i => rangeOf i known := List.mem_map.mpr ⟨i, there, rfl⟩
  split
  · rename_i none_
    rw [none_] at mapped
    cases mapped
  · rename_i r rest split
    rw [split] at mapped
    rcases List.mem_cons.mp mapped with same | later
    · rw [same] at inside
      exact contains_joins rest (s := r) (.inl inside)
    · exact contains_joins rest (.inr ⟨later, inside⟩)

theorem Inside.step {f : SsaFunction} {known : Value → Option Range} {op : SsaOp} {entered state next : State}
    (settled : Settled f.ops known) (there : op ∈ f.ops) (before : Inside known entered) (inside : Inside known state)
    (executes : Executes op entered state next)
    (faithful : ∀ v c, op.out = some v → next v = some c → Faithful v c) : Inside known next := by
  cases executes with
  | quiet => exact inside
  | @merge v i c merge out among gives =>
    obtain ⟨then_, found, others⟩ := settled op there v out
    have reads := faithful v _ out (Function.update_self ..)
    intro u d holds
    by_cases same : u = v
    · subst same
      rw [Function.update_self] at holds
      cases holds
      exact ⟨reads, kept_small .., _, found, evaluate_merge merge among (gives_known before others gives).inside⟩
    · rw [Function.update_of_ne same] at holds
      exact inside u d holds
  | @work o v cells x kind out gives works =>
    obtain ⟨then_, found, others⟩ := settled op there v out
    have reads := faithful v _ out (Function.update_self ..)
    have all : List.Forall₂ (Known then_) op.inputs cells := gives.imp fun _ _ given => gives_known inside others given
    intro u d holds
    by_cases same : u = v
    · subst same
      rw [Function.update_self] at holds
      cases holds
      refine ⟨reads, kept_small .., _, found, ?_⟩
      unfold evaluate
      rw [kind]
      cases o with
      | basic o => exact evaluateBasic_contains all works (kept_le ..) (kept_short ..) (kept_small ..) reads
      | float o =>
        have any : Range.any.contains (natural u.location.size (kept op u x)) :=
          Range.contains_any (natural_fits (kept_small ..))
        cases works with
        | float truth =>
          cases o
          case floatEqual | floatNotEqual | floatLess | floatLessEqual | floatNan =>
            have := truth rfl
            have := kept_le op u x
            exact low_contains (kept_small ..) (by omega) (by omega)
          all_goals exact any
    · rw [Function.update_of_ne same] at holds
      exact inside u d holds

theorem Run.inside {f : SsaFunction} {known : Value → Option Range} {a n : ℕ} {entered state : State}
    (run : Run f Faithful a n entered state) (settled : Settled f.ops known) : Inside known entered ∧ Inside known state := by
  induction run with
  | start => exact ⟨fun v c holds => (by cases holds), fun v c holds => (by cases holds)⟩
  | step _ found at_ executes faithful ih =>
    have there := SsaFunction.mem_ops.mpr ⟨_, SsaFunction.mem_blocks_of_get found, List.mem_of_getElem? at_⟩
    exact ⟨ih.1, Inside.step settled there ih.1 ih.2 executes faithful⟩
  | jump _ _ _ _ ih => exact ⟨ih.2, ih.2⟩

/-- In every run whose numbers stay within their widths, every value lies in its interval. -/
theorem ranges_hold (f : SsaFunction) (a n : ℕ) (entered state : State) (run : Run f Faithful a n entered state)
    (v : Value) (c : Cell) (holds : state v = some c) : ∃ r, ranges f v = some r ∧ Holds r v.location.size c.bits := by
  obtain ⟨known, settled, grows⟩ := ranges_settled f
  obtain ⟨reads, -, r, found, contained⟩ := (run.inside settled).2 v c holds
  obtain ⟨s, found', within⟩ := grows v r found
  refine ⟨s, found', ?_⟩
  rcases reads.2 with same | ⟨short, same⟩
  · rw [same] at contained
    exact .inl (Range.contains_of_within within contained)
  · rw [same] at contained
    exact .inr ⟨short, Range.contains_of_within within contained⟩

/-! ### A byte that wraps -/

def byteRegister (version : ℕ) : Value := ⟨⟨.register, gprOffset 0, 1⟩, version⟩

def loadByte : SsaOp where
  addr := 0
  kind := .op (.basic .load)
  out := some (byteRegister 0)
  inputs := [.undefined (wholeRegister (gprOffset 7))]
  size := 1

def addOne : SsaOp where
  addr := 2
  kind := .op (.basic .intAdd)
  out := some (byteRegister 1)
  inputs := [.value (byteRegister 0), .const 1 1]
  size := 1

/-- `mov al, [rdi]; add al, 1` -/
def increment : SsaFunction where
  arch := .x86_64
  entry := 0
  blocks := [(0, { ops := [loadByte, addOne], successors := [], predecessors := [] })]
  sorted := by decide
  single := by decide

/-- What the two operations leave. -/
def incremented (byte sum : Cell) : State :=
  Function.update (Function.update (fun _ => none) (byteRegister 0) (some byte)) (byteRegister 1) (some sum)

theorem increment_run (meets : Value → Cell → Prop) (byte sum : Cell)
    (loaded : (⟨kept loadByte (byteRegister 0) byte.bits, natural 1 (kept loadByte (byteRegister 0) byte.bits)⟩ : Cell) = byte)
    (added : (⟨kept addOne (byteRegister 1) ((byte.bits + 1) % 2 ^ 64), exact (.basic .intAdd) addOne [byte, ⟨1, 1⟩] 1
      (kept addOne (byteRegister 1) ((byte.bits + 1) % 2 ^ 64))⟩ : Cell) = sum)
    (first : meets (byteRegister 0) byte) (second : meets (byteRegister 1) sum) :
    Run increment meets 0 2 (fun _ => none) (incremented byte sum) := by
  have address : Gives (fun _ => none) (.undefined (wholeRegister (gprOffset 7))) ⟨0, 0⟩ :=
    .undefined (bound_pos _) ⟨by decide, .inl (sext_zero _).symm⟩
  have loads : Executes loadByte (fun _ => none) (fun _ => none)
      (Function.update (fun _ => none) (byteRegister 0) (some byte)) := by
    rw [← loaded]
    exact .work (o := .basic .load) (x := byte.bits) rfl rfl (.cons address .nil) (.arbitrary rfl)
  have one : Gives (Function.update (fun _ => none) (byteRegister 0) (some byte)) (.const 1 1) ⟨1, 1⟩ :=
    .const (v := 1) (by decide)
  have adds : Executes addOne (fun _ => none) (Function.update (fun _ => none) (byteRegister 0) (some byte))
      (incremented byte sum) := by
    rw [incremented, ← added]
    exact .work (o := .basic .intAdd) (x := (byte.bits + 1) % 2 ^ 64) rfl rfl (.cons (.value (Function.update_self ..)) (.cons one .nil))
      (.computed rfl)
  refine (Run.start.step rfl rfl loads ?_).step rfl rfl adds ?_
  · intro v c out holds
    cases out
    cases holds.symm.trans (Function.update_self ..)
    exact first
  · intro v c out holds
    cases out
    cases holds.symm.trans (Function.update_self ..)
    exact second

theorem ranges_hold_increment : ∃ r, ranges increment (byteRegister 1) = some r ∧ Holds r 1 0x11 :=
  ranges_hold increment 0 2 _ _
    (increment_run Faithful ⟨0x10, 0x10⟩ ⟨0x11, 0x11⟩ (by decide) (by decide) ⟨by decide, .inr ⟨by decide, rfl⟩⟩
      ⟨by decide, .inr ⟨by decide, rfl⟩⟩)
    (byteRegister 1) ⟨0x11, 0x11⟩ (Function.update_self ..)

/-- The sum of the byte `0xff` and one is zero, which its interval leaves out. -/
theorem increment_left_out :
    ¬∀ f a n entered state, Run f (fun _ _ => True) a n entered state → ∀ v c, state v = some c →
      ∃ r, ranges f v = some r ∧ Holds r v.location.size c.bits := by
  intro sound
  have run := increment_run (fun _ _ => True) ⟨0xff, 0xff⟩ ⟨0, 0x100⟩ (by decide) (by decide) trivial trivial
  obtain ⟨r, found, holds⟩ := sound _ _ _ _ _ run (byteRegister 1) ⟨0, 0x100⟩ (Function.update_self ..)
  have interval : ranges increment (byteRegister 1) = some ⟨1, 0x100⟩ := by decide
  cases interval.symm.trans found
  rcases holds with signed | ⟨-, unsigned⟩
  · exact absurd signed (by decide)
  · exact absurd unsigned (by decide)

end E5r.RangeAnalysis
