import E5r.PatchText

/-!
What reading a patch set does with the bytes of its edits. A field is cut every two
bytes, so a character that does not end at a cut stops the program, and each pair is
read as a number, which may begin with a plus sign.
-/
namespace E5r.PatchReads
open RustText TextSlices Fallible PatchModel PatchText

/-! ### Pairs of bytes -/

def HexDigit (c : Char) : Prop := ('0' ≤ c ∧ c ≤ '9') ∨ ('a' ≤ c ∧ c ≤ 'f') ∨ ('A' ≤ c ∧ c ≤ 'F')

/-- Two hexadecimal digits. -/
def HexPair (p : List Char) : Prop := ∃ c d, p = [c, d] ∧ HexDigit c ∧ HexDigit d

def SignedPair (p : List Char) : Prop := ∃ d, p = ['+', d] ∧ HexDigit d

/-- A text whose second byte does not end a character. -/
def Straddles (s : List Char) : Prop :=
  ∃ c rest, s = c :: rest ∧ (2 < c.utf8Size ∨ c.utf8Size = 1 ∧ ∃ d more, rest = d :: more ∧ 1 < d.utf8Size)

/-- A field of an even number of bytes, not none, that starts with pairs which can be
    read. -/
structure Cut (v : List Char) (pairs : List (List Char)) (rest : List Char) : Prop where
  nonempty : v ≠ []
  even : byteLen v % 2 = 0
  whole : v = pairs.flatten ++ rest
  read : ∀ p ∈ pairs, HexPair p ∨ SignedPair p

/-- The field is cut inside a character. -/
def Splits (v : List Char) : Prop := ∃ pairs rest, Cut v pairs rest ∧ Straddles rest

/-- The field is read to its end, and some pair of it has a sign. -/
def Signed (v : List Char) : Prop := ∃ pairs, Cut v pairs [] ∧ ∃ p ∈ pairs, SignedPair p

/-- An even number of hexadecimal digits, not none. -/
structure IsHex (v : List Char) : Prop where
  nonempty : v ≠ []
  even : v.length % 2 = 0
  digits : ∀ c ∈ v, HexDigit c

theorem toDigit_hex {c : Char} : (∃ d, toDigit 16 c = some d) ↔ HexDigit c := by
  have order : ∀ x y : Char, x ≤ y ↔ x.toNat ≤ y.toNat := fun x y => Iff.rfl
  unfold toDigit HexDigit
  simp only [order, Option.filter_eq_some_iff, decide_eq_true_iff, Char.reduceToNat]
  constructor
  · rintro ⟨d, is, below⟩
    split at is
    · next digit => exact .inl digit
    · split at is
      · next digit =>
        cases is
        exact .inr (.inl (by omega))
      · split at is
        · next digit =>
          cases is
          exact .inr (.inr (by omega))
        · cases is
  · rintro (digit | digit | digit)
    · exact ⟨c.toNat - 48, by rw [if_pos (by omega)], by omega⟩
    · exact ⟨c.toNat - 87, by rw [if_neg (by omega), if_pos (by omega)], by omega⟩
    · exact ⟨c.toNat - 55, by rw [if_neg (by omega), if_neg (by omega), if_pos (by omega)], by omega⟩

theorem hexDigit_size {c : Char} (digit : HexDigit c) : c.utf8Size = 1 := by
  have order : ∀ x y : Char, x ≤ y ↔ x.toNat ≤ y.toNat := fun x y => Iff.rfl
  unfold HexDigit at digit
  simp only [order, Char.reduceToNat] at digit
  have small : c.val ≤ 0x7f := by
    rw [UInt32.le_iff_toNat_le]
    show c.toNat ≤ 127
    omega
  rw [Char.utf8Size]
  simp [small]

private theorem digits_hex {s : List Char} {ds : List ℕ} (each : s.mapM (toDigit 16) = some ds) :
    ∀ c ∈ s, HexDigit c := by
  induction s generalizing ds with
  | nil =>
    intro c member
    cases member
  | cons d rest ih =>
    simp only [List.mapM_cons, Option.bind_eq_bind, Option.bind_eq_some_iff] at each
    obtain ⟨x, first, xs, later, -⟩ := each
    intro c member
    rcases List.mem_cons.mp member with rfl | inside
    · exact toDigit_hex.mp ⟨x, first⟩
    · exact ih later c inside

theorem pair_read {p : List Char} (two : byteLen p = 2) :
    (∃ b, fromStrRadix 16 (2 ^ 8) p = some b) ↔ HexPair p ∨ SignedPair p := by
  constructor
  · rintro ⟨b, read⟩
    obtain ⟨body, ds, form, nonempty, each, -, -⟩ := fromStrRadix_eq_some_iff.mp read
    have digits := digits_hex each
    match body, nonempty, digits with
    | [c], _, digits =>
      have one := hexDigit_size (digits c (by simp))
      rcases form with rfl | rfl
      · simp [one] at two
      · exact .inr ⟨c, rfl, digits c (by simp)⟩
    | [c, d], _, digits =>
      have first := hexDigit_size (digits c (by simp))
      have second := hexDigit_size (digits d (by simp))
      rcases form with rfl | rfl
      · exact .inl ⟨c, d, rfl, digits c (by simp), digits d (by simp)⟩
      · simp [first, second, show '+'.utf8Size = 1 by decide] at two
    | c :: d :: e :: more, _, _ =>
      have := c.utf8Size_pos
      have := d.utf8Size_pos
      have := e.utf8Size_pos
      rcases form with rfl | rfl
      · simp only [byteLen_cons] at two
        omega
      · simp only [byteLen_cons] at two
        omega
  · have below : ∀ {c v}, toDigit 16 c = some v → v < 16 := by
      intro c v read
      simp only [toDigit, Option.filter_eq_some_iff, decide_eq_true_iff] at read
      exact read.2
    rintro (⟨c, d, rfl, first, second⟩ | ⟨d, rfl, digit⟩)
    · obtain ⟨x, isX⟩ := Iff.mpr toDigit_hex first
      obtain ⟨y, isY⟩ := Iff.mpr toDigit_hex second
      have := below isX
      have := below isY
      exact ⟨x * 16 + y, fromStrRadix_eq_some_iff.mpr
        ⟨[c, d], [x, y], .inl rfl, by simp, by simp [isX, isY], by simp, by omega⟩⟩
    · obtain ⟨y, isY⟩ := Iff.mpr toDigit_hex digit
      have := below isY
      exact ⟨y, fromStrRadix_eq_some_iff.mpr ⟨[d], [y], .inr rfl, by simp, by simp [isY], by simp, by omega⟩⟩

theorem splitAtByte_two {s : List Char} (more : 2 ≤ byteLen s) : splitAtByte 2 s = none ↔ Straddles s := by
  match s with
  | [] => cases more
  | [c] =>
    have := c.utf8Size_pos
    simp only [byteLen_cons, byteLen_nil] at more
    simp only [splitAtByte, Straddles]
    by_cases two : c.utf8Size = 2
    · simp [two, splitAtByte]
    · simp only [show ¬c.utf8Size ≤ 0 + 1 + 1 by omega, if_false, true_iff]
      exact ⟨c, [], rfl, .inl (by omega)⟩
  | c :: d :: rest =>
    have posC := c.utf8Size_pos
    have posD := d.utf8Size_pos
    rw [splitAtByte]
    by_cases three : 2 < c.utf8Size
    · rw [if_neg (by omega)]
      simp only [true_iff]
      exact ⟨c, d :: rest, rfl, .inl three⟩
    · rw [if_pos (by omega)]
      by_cases two : c.utf8Size = 2
      · rw [show 0 + 1 + 1 - c.utf8Size = 0 by omega]
        simp [splitAtByte, Straddles, two]
      · rw [show 0 + 1 + 1 - c.utf8Size = 0 + 1 by omega, splitAtByte]
        by_cases one : d.utf8Size = 1
        · rw [if_pos (by omega), show 0 + 1 - d.utf8Size = 0 by omega]
          simp [splitAtByte, Straddles, three, one]
        · rw [if_neg (by omega)]
          simp only [Option.map_none, true_iff]
          exact ⟨c, d :: rest, rfl, .inr ⟨by omega, d, rest, rfl, by omega⟩⟩

/-! ### Fields of bytes -/

theorem readable_size {p : List Char} (read : HexPair p ∨ SignedPair p) : byteLen p = 2 := by
  rcases read with ⟨c, d, rfl, first, second⟩ | ⟨d, rfl, digit⟩
  · simp [hexDigit_size first, hexDigit_size second]
  · simp [hexDigit_size digit, show '+'.utf8Size = 1 by decide]

/-- A text starts with pairs that can be read, and ends as `Q` says. -/
def Prefixed (Q : List Char → Prop) (s : List Char) : Prop :=
  ∃ (pairs : List (List Char)) (rest : List Char), s = pairs.flatten ++ rest ∧
    (∀ p ∈ pairs, HexPair p ∨ SignedPair p) ∧ Q rest

theorem prefixed_append {Q : List Char → Prop} {p t : List Char} (two : byteLen p = 2) (not : ¬Q (p ++ t)) :
    Prefixed Q (p ++ t) ↔ (HexPair p ∨ SignedPair p) ∧ Prefixed Q t := by
  constructor
  · rintro ⟨pairs, rest, whole, read, ends⟩
    cases pairs with
    | nil =>
      rw [List.flatten_nil, List.nil_append] at whole
      exact absurd (whole ▸ ends) not
    | cons q pairs =>
      have first := splitAtByte_append p t
      rw [whole, List.flatten_cons, List.append_assoc, two, ← readable_size (read q (by simp)),
        splitAtByte_append, Option.some_inj, Prod.mk.injEq] at first
      obtain ⟨rfl, rfl⟩ := first
      exact ⟨read q (by simp), pairs, rest, rfl, fun p member => read p (by simp [member]), ends⟩
  · rintro ⟨first, pairs, rest, rfl, read, ends⟩
    refine ⟨p :: pairs, rest, by simp, ?_, ends⟩
    intro q member
    rcases List.mem_cons.mp member with rfl | later
    · exact first
    · exact read q later

theorem prefixed_straddles {Q : List Char → Prop} {s : List Char} (straddles : Straddles s) (more : 2 ≤ byteLen s) :
    Prefixed Q s ↔ Q s := by
  constructor
  · rintro ⟨pairs, rest, whole, read, ends⟩
    cases pairs with
    | nil =>
      rw [List.flatten_nil, List.nil_append] at whole
      exact whole ▸ ends
    | cons q pairs =>
      have none := (splitAtByte_two more).mpr straddles
      rw [whole, List.flatten_cons, List.append_assoc, ← readable_size (read q (by simp)), splitAtByte_append] at none
      cases none
  · intro ends
    exact ⟨[], s, rfl, by simp, ends⟩

theorem hexByte_append {a s : List Char} {k : ℕ} (size : byteLen a = k * 2) :
    hexByte (a ++ s) k = (splitAtByte 2 s).map fun parts =>
      ((fromStrRadix 16 (2 ^ 8) parts.1).map UInt8.ofNat).elim (.error ()) .ok := by
  rw [hexByte, ← size, slice_append, Option.map_map]
  rfl

theorem hexBytes_cases (n : ℕ) : ∀ {a s : List Char} {k : ℕ}, byteLen a = k * 2 → byteLen s = n * 2 →
    ((List.range' k n).mapM (hexByte (a ++ s)) = none ↔ Prefixed Straddles s) ∧
      ((∃ bs, (List.range' k n).mapM (hexByte (a ++ s)) = some (.ok bs)) ↔ Prefixed (· = []) s) := by
  induction n with
  | zero =>
    intro a s k _ size
    obtain rfl := byteLen_eq_zero.mp (size.trans (Nat.zero_mul 2))
    constructor
    · constructor
      · rintro ⟨⟩
      · rintro ⟨pairs, rest, whole, -, c, more, rfl, -⟩
        simp at whole
    · exact ⟨fun _ => ⟨[], [], rfl, by simp, rfl⟩, fun _ => ⟨[], rfl⟩⟩
  | succ n ih =>
    intro a s k before size
    have more : 2 ≤ byteLen s := by omega
    rw [List.range'_succ, List.mapM_cons]
    cases split : splitAtByte 2 s with
    | none =>
      have straddles := (splitAtByte_two more).mp split
      have panics : hexByte (a ++ s) k = none := by rw [hexByte_append before, split]; rfl
      rw [panics, prefixed_straddles straddles more, prefixed_straddles straddles more]
      refine ⟨⟨fun _ => straddles, fun _ => rfl⟩, ?_, ?_⟩
      · rintro ⟨_, ⟨⟩⟩
      · rintro rfl
        cases more
    | some parts =>
      obtain ⟨p, t⟩ := parts
      obtain ⟨rfl, two⟩ := splitAtByte_eq_some_iff.mp split
      have inside : ¬Straddles (p ++ t) := fun straddles => by
        rw [(splitAtByte_two more).mpr straddles] at split
        cases split
      have some : ¬p ++ t = [] := fun empty => by
        rw [empty] at more
        cases more
      rw [prefixed_append two inside, prefixed_append (Q := (· = [])) two some, ← pair_read two]
      have here := hexByte_append (s := p ++ t) before
      rw [split, Option.map_some] at here
      dsimp only at here
      cases read : fromStrRadix 16 (2 ^ 8) p with
      | none =>
        rw [read] at here
        have stops : hexByte (a ++ (p ++ t)) k = Option.some (Except.error ()) := here
        rw [stops]
        constructor
        · constructor
          · rintro ⟨⟩
          · rintro ⟨⟨_, ⟨⟩⟩, -⟩
        · constructor
          · rintro ⟨_, ⟨⟩⟩
          · rintro ⟨⟨_, ⟨⟩⟩, -⟩
      | some b =>
        rw [read] at here
        have runs : hexByte (a ++ (p ++ t)) k = Option.some (Except.ok (UInt8.ofNat b)) := here
        rw [byteLen_append] at size
        obtain ⟨panics, returns⟩ := ih (a := a ++ p) (s := t) (k := k + 1)
          (by rw [byteLen_append]; omega) (by omega)
        rw [List.append_assoc] at panics returns
        rw [bind_ok _ runs, ← panics, ← returns]
        constructor
        · rw [bind_none_iff]
          constructor
          · rintro (panics | ⟨_, -, ⟨⟩⟩)
            exact ⟨⟨b, rfl⟩, panics⟩
          · rintro ⟨-, panics⟩
            exact .inl panics
        · constructor
          · rintro ⟨bs, all⟩
            obtain ⟨cs, rest, -⟩ := bind_some_ok_iff.mp all
            exact ⟨⟨b, rfl⟩, cs, rest⟩
          · rintro ⟨-, cs, rest⟩
            exact ⟨UInt8.ofNat b :: cs, by rw [bind_ok _ rest]; rfl⟩

theorem unhex_cases {v : List Char} (some : v ≠ []) (even : byteLen v % 2 = 0) :
    (unhex v = none ↔ Prefixed Straddles v) ∧ ((∃ bs, unhex v = Option.some (.ok bs)) ↔ Prefixed (· = []) v) := by
  rw [unhex, if_neg (by simp [some, even]), List.range_eq_range']
  exact hexBytes_cases (byteLen v / 2) (a := []) (by simp) (by omega)

private theorem unhex_refuses {v : List Char} (bad : v = [] ∨ byteLen v % 2 ≠ 0) : unhex v = some (.error ()) := by
  rw [unhex, if_pos]
  simpa using bad

/-- A field stops the program when it is cut inside a character. -/
theorem unhex_none_iff {v : List Char} : unhex v = none ↔ Splits v := by
  by_cases good : v ≠ [] ∧ byteLen v % 2 = 0
  · rw [(unhex_cases good.1 good.2).1]
    constructor
    · rintro ⟨pairs, rest, whole, read, straddles⟩
      exact ⟨pairs, rest, ⟨good.1, good.2, whole, read⟩, straddles⟩
    · rintro ⟨pairs, rest, cut, straddles⟩
      exact ⟨pairs, rest, cut.whole, cut.read, straddles⟩
  · rw [unhex_refuses (by simpa [or_iff_not_imp_left] using good)]
    constructor
    · rintro ⟨⟩
    · rintro ⟨pairs, rest, cut, -⟩
      exact absurd ⟨cut.nonempty, cut.even⟩ good

theorem isHex_iff {v : List Char} : IsHex v ↔ ∃ pairs, Cut v pairs [] ∧ ∀ p ∈ pairs, HexPair p := by
  have flat : ∀ pairs : List (List Char), (∀ p ∈ pairs, HexPair p) →
      pairs.flatten.length % 2 = 0 ∧ ∀ c ∈ pairs.flatten, HexDigit c := by
    intro pairs all
    induction pairs with
    | nil => simp
    | cons p pairs ih =>
      obtain ⟨c, d, rfl, first, second⟩ := all p (by simp)
      obtain ⟨even, digits⟩ := ih fun q member => all q (by simp [member])
      constructor
      · rw [List.flatten_cons, List.length_append, List.length_cons, List.length_singleton]
        omega
      · simpa [first, second] using digits
  have pairs : ∀ n, ∀ v : List Char, v.length = 2 * n → (∀ c ∈ v, HexDigit c) →
      ∃ pairs : List (List Char), v = pairs.flatten ∧ byteLen v % 2 = 0 ∧ ∀ p ∈ pairs, HexPair p := by
    intro n
    induction n with
    | zero =>
      intro v length digits
      obtain rfl := List.length_eq_zero_iff.mp length
      exact ⟨[], rfl, rfl, by simp⟩
    | succ n ih =>
      intro v length digits
      match v, length, digits with
      | c :: d :: rest, length, digits =>
        have first := digits c (by simp)
        have second := digits d (by simp)
        obtain ⟨pairs, rfl, even, all⟩ := ih rest (by simp at length; omega) fun c member => digits c (by simp [member])
        refine ⟨[c, d] :: pairs, by simp, ?_, ?_⟩
        · simp only [byteLen_cons, hexDigit_size first, hexDigit_size second]
          omega
        · intro p member
          rcases List.mem_cons.mp member with rfl | later
          · exact ⟨c, d, rfl, first, second⟩
          · exact all p later
      | [c], length, _ => simp at length; omega
  constructor
  · intro hex
    obtain ⟨ps, whole, even, all⟩ := pairs (v.length / 2) v (by have := hex.even; omega) hex.digits
    exact ⟨ps, ⟨hex.nonempty, even, by simpa using whole, fun p member => .inl (all p member)⟩, all⟩
  · rintro ⟨ps, cut, all⟩
    obtain ⟨even, digits⟩ := flat ps all
    have whole : v = ps.flatten := by simpa using cut.whole
    exact ⟨cut.nonempty, whole ▸ even, whole ▸ digits⟩

/-- A field is read as bytes when it is digits, or pairs some of which have a sign. -/
theorem unhex_ok_iff {v : List Char} : (∃ bs, unhex v = some (.ok bs)) ↔ IsHex v ∨ Signed v := by
  have both : IsHex v ∨ Signed v ↔ ∃ pairs, Cut v pairs [] := by
    rw [isHex_iff]
    constructor
    · rintro (⟨pairs, cut, -⟩ | ⟨pairs, cut, -⟩)
      · exact ⟨pairs, cut⟩
      · exact ⟨pairs, cut⟩
    · rintro ⟨pairs, cut⟩
      by_cases sign : ∃ p ∈ pairs, SignedPair p
      · exact .inr ⟨pairs, cut, sign⟩
      · refine .inl ⟨pairs, cut, fun p member => (cut.read p member).resolve_right fun signed => ?_⟩
        exact sign ⟨p, member, signed⟩
  rw [both]
  by_cases good : v ≠ [] ∧ byteLen v % 2 = 0
  · rw [(unhex_cases good.1 good.2).2]
    constructor
    · rintro ⟨pairs, rest, whole, read, rfl⟩
      exact ⟨pairs, good.1, good.2, whole, read⟩
    · rintro ⟨pairs, cut⟩
      exact ⟨pairs, [], cut.whole, cut.read, rfl⟩
  · rw [unhex_refuses (by simpa [or_iff_not_imp_left] using good)]
    constructor
    · rintro ⟨_, ⟨⟩⟩
    · rintro ⟨pairs, cut⟩
      exact absurd ⟨cut.nonempty, cut.even⟩ good

theorem signed_not_hex {v : List Char} (signed : Signed v) : ¬IsHex v := by
  obtain ⟨pairs, cut, p, member, d, rfl, -⟩ := signed
  intro hex
  have inside : '+' ∈ v := by
    rw [cut.whole]
    simp only [List.append_nil, List.mem_flatten]
    exact ⟨_, member, by simp⟩
  exact absurd (hex.digits '+' inside) (by unfold HexDigit; decide)

/-! ### What reading a text reaches -/

/-- Reading goes on behind a line. -/
def Passed (line : List Char) : Prop :=
  line.isEmpty ∨ line.head? = some '#' ∨
    (∃ quoted name, stripPrefix "name ".toList line = some quoted ∧ unquote (trim quoted) = some name) ∨
    (∃ digest, stripPrefix "binary ".toList line = some digest) ∨ ∃ e, parseEdit line = some (.ok e)

def Asks (line v : List Char) : Prop :=
  ∃ head who note, editParts line = some (head, who, note) ∧
    ∃ before field after fs, splitWhitespace head = before ++ field :: after ∧
      (before.foldlM readField {} : Reading Fields) = some (.ok fs) ∧
      (splitOnce '=' field = some ("expect".toList, v) ∨ splitOnce '=' field = some ("replace".toList, v))

/-- Reading a text comes to the bytes of a field. -/
def Reaches (text : String) (v : List Char) : Prop :=
  readHeader ((lines text.toList).headD []) = .ok () ∧
    ∃ before line after, (lines text.toList).drop 1 = before ++ line :: after ∧
      (∀ l ∈ before, Passed (trim l)) ∧ Asks (trim line) v

private theorem question_ne_none {α : Type} {x : Option α} : question x ≠ none := by
  cases x <;> nofun

private theorem question_ok {α : Type} {x : Option α} {a : α} : question x = some (.ok a) ↔ x = some a := by
  cases x with
  | none =>
    constructor
    · rintro ⟨⟩
    · rintro ⟨⟩
  | some b =>
    constructor
    · rintro ⟨⟩
      rfl
    · rintro ⟨⟩
      rfl

theorem setField_none_iff {fs : Fields} {key v : List Char} :
    setField fs key v = none ↔ (key = "expect".toList ∨ key = "replace".toList) ∧ unhex v = none := by
  have different : "replace".toList ≠ "expect".toList := by decide
  unfold setField
  by_cases expect : key = "expect".toList
  · subst expect
    simp
    exact Option.map_eq_none_iff
  by_cases replace : key = "replace".toList
  · subst replace
    simp [different]
    exact Option.map_eq_none_iff
  simp only [expect, replace, if_false, or_self, false_and, iff_false]
  split_ifs
  · nofun
  · nofun
  · nofun
  · nofun
  · exact question_ne_none
  · nofun

theorem readField_none_iff {fs : Fields} {field : List Char} :
    readField fs field = none ↔ ∃ v, Splits v ∧
      (splitOnce '=' field = some ("expect".toList, v) ∨ splitOnce '=' field = some ("replace".toList, v)) := by
  rw [readField, bind_none_iff]
  constructor
  · rintro (absurd | ⟨⟨key, v⟩, split, panics⟩)
    · exact (question_ne_none absurd).elim
    · rw [question_ok] at split
      obtain ⟨rfl | rfl, cut⟩ := Iff.mp setField_none_iff panics
      · exact ⟨v, unhex_none_iff.mp cut, .inl split⟩
      · exact ⟨v, unhex_none_iff.mp cut, .inr split⟩
  · rintro ⟨v, cut, split | split⟩
    · exact .inr ⟨_, question_ok.mpr split, setField_none_iff.mpr ⟨.inl rfl, unhex_none_iff.mpr cut⟩⟩
    · exact .inr ⟨_, question_ok.mpr split, setField_none_iff.mpr ⟨.inr rfl, unhex_none_iff.mpr cut⟩⟩

theorem parseEdit_none_iff {line : List Char} : parseEdit line = none ↔ ∃ v, Asks line v ∧ Splits v := by
  rw [parseEdit, bind_none_iff]
  constructor
  · rintro (absurd | ⟨⟨head, who, note⟩, parts, panics⟩)
    · exact (question_ne_none absurd).elim
    · rw [bind_none_iff] at panics
      rcases panics with panics | ⟨fs, -, absurd⟩
      · obtain ⟨before, field, after, fs, fields, front, stops⟩ := foldlM_none_iff.mp panics
        obtain ⟨v, cut, split⟩ := Iff.mp readField_none_iff stops
        exact ⟨v, ⟨head, who, note, question_ok.mp parts, before, field, after, fs, fields, front, split⟩, cut⟩
      · exact (question_ne_none absurd).elim
  · rintro ⟨v, ⟨head, who, note, parts, before, field, after, fs, fields, front, split⟩, cut⟩
    refine .inr ⟨(head, who, note), question_ok.mpr parts, ?_⟩
    rw [bind_none_iff]
    exact .inl (foldlM_none_iff.mpr ⟨before, field, after, fs, fields, front, readField_none_iff.mpr ⟨v, cut, split⟩⟩)

theorem editParts_other {line : List Char} {parts : List Char × List Char × List Char} (found : editParts line = some parts) :
    ¬(line.isEmpty ∨ line.head? = some '#') ∧ stripPrefix "name ".toList line = none ∧
      stripPrefix "binary ".toList line = none := by
  rw [editParts, Option.bind_eq_bind, Option.bind_eq_some_iff] at found
  obtain ⟨rest, strip, -⟩ := found
  unfold stripPrefix at strip
  split at strip
  · next isPrefix =>
    obtain ⟨more, rfl⟩ := List.isPrefixOf_iff_prefix.mp isPrefix
    refine ⟨?_, ?_, ?_⟩
    · simp
    · simp [stripPrefix, List.isPrefixOf]
    · simp [stripPrefix, List.isPrefixOf]
  · cases strip

theorem readLines_passed {number : ℕ} {patch : Patch} {line : List Char} {rest : List (List Char)}
    (passed : Passed (trim line)) :
    ∃ next, readLines number patch (line :: rest) = readLines (number + 1) next rest := by
  rw [readLines]
  generalize trim line = l at passed ⊢
  by_cases skip : l.isEmpty ∨ l.head? = some '#'
  · exact ⟨patch, if_pos skip⟩
  · rw [if_neg skip]
    cases named : stripPrefix "name ".toList l with
    | some quoted =>
      dsimp only
      cases read : unquote (trim quoted) with
      | some name => exact ⟨_, rfl⟩
      | none =>
        rcases passed with empty | comment | ⟨_, _, strip, name⟩ | ⟨_, strip⟩ | ⟨e, edit⟩
        · exact absurd (.inl empty) skip
        · exact absurd (.inr comment) skip
        · rw [named] at strip
          cases strip
          rw [read] at name
          cases name
        · have first : ∀ p : List Char, stripPrefix p l ≠ none → p <+: l := by
            intro p found
            unfold stripPrefix at found
            split at found
            · next isPrefix => exact List.isPrefixOf_iff_prefix.mp isPrefix
            · exact absurd rfl found
          obtain ⟨a, rfl⟩ := first _ (by rw [named]; nofun)
          obtain ⟨b, same⟩ := first _ (by rw [strip]; nofun)
          simp at same
        · obtain ⟨parts, is, -⟩ := bind_some_ok_iff.mp edit
          rw [(editParts_other (question_ok.mp is)).2.1] at named
          cases named
    | none =>
      dsimp only
      cases digest : stripPrefix "binary ".toList l with
      | some d => exact ⟨_, rfl⟩
      | none =>
        dsimp only
        rcases passed with empty | comment | ⟨_, _, strip, -⟩ | ⟨_, strip⟩ | ⟨e, edit⟩
        · exact absurd (.inl empty) skip
        · exact absurd (.inr comment) skip
        · rw [named] at strip
          cases strip
        · rw [digest] at strip
          cases strip
        · rw [edit]
          exact ⟨_, rfl⟩

private theorem stops_later {line : List Char} {rest : List (List Char)} (first : Passed (trim line))
    (later : ∃ before l after, rest = before ++ l :: after ∧ (∀ m ∈ before, Passed (trim m)) ∧
      parseEdit (trim l) = none) :
    ∃ before l after, line :: rest = before ++ l :: after ∧ (∀ m ∈ before, Passed (trim m)) ∧
      parseEdit (trim l) = none := by
  obtain ⟨before, l, after, rfl, passed, stops⟩ := later
  refine ⟨line :: before, l, after, rfl, ?_, stops⟩
  intro m member
  rcases List.mem_cons.mp member with rfl | inside
  · exact first
  · exact passed m inside

theorem readLines_none_iff {number : ℕ} {patch : Patch} {ls : List (List Char)} :
    readLines number patch ls = none ↔ ∃ before line after, ls = before ++ line :: after ∧
      (∀ l ∈ before, Passed (trim l)) ∧ parseEdit (trim line) = none := by
  constructor
  · intro panics
    fun_induction readLines number patch ls with
    | case1 => cases panics
    | case2 number patch line rest trimmed skip ih =>
      exact stops_later (skip.imp_right .inl) (ih panics)
    | case3 number patch line rest trimmed keep quoted strip name read ih =>
      exact stops_later (.inr (.inr (.inl ⟨quoted, name, strip, read⟩))) (ih panics)
    | case4 => cases panics
    | case5 number patch line rest trimmed keep named digest strip ih =>
      exact stops_later (.inr (.inr (.inr (.inl ⟨digest, strip⟩)))) (ih panics)
    | case6 number patch line rest trimmed keep named other stops =>
      exact ⟨[], line, rest, rfl, by simp, stops⟩
    | case7 number patch line rest trimmed keep named other edit parsed ih =>
      exact stops_later (.inr (.inr (.inr (.inr ⟨edit, parsed⟩)))) (ih panics)
    | case8 => cases panics
  · rintro ⟨before, line, after, rfl, passed, stops⟩
    induction before generalizing number patch with
    | nil =>
      obtain ⟨v, asks, -⟩ := Iff.mp parseEdit_none_iff stops
      obtain ⟨head, who, note, parts, -⟩ := asks
      obtain ⟨keep, named, other⟩ := editParts_other parts
      rw [List.nil_append, readLines]
      rw [if_neg keep, named, other, stops]
    | cons l before ih =>
      obtain ⟨next, same⟩ := @readLines_passed number patch l (before ++ line :: after)
        (passed l (by simp))
      rw [List.cons_append, same]
      exact ih fun m member => passed m (by simp [member])

theorem fromText_none_iff {text : String} : fromText text = none ↔ ∃ v, Reaches text v ∧ Splits v := by
  rw [fromText]
  cases header : readHeader ((RustText.lines text.toList).headD []) with
  | error e =>
    constructor
    · rintro ⟨⟩
    · rintro ⟨v, ⟨accepted, -⟩, -⟩
      rw [header] at accepted
      cases accepted
  | ok u =>
    dsimp only
    rw [readLines_none_iff]
    constructor
    · rintro ⟨before, line, after, split, passed, stops⟩
      obtain ⟨v, asks, cut⟩ := Iff.mp parseEdit_none_iff stops
      exact ⟨v, ⟨header, before, line, after, split, passed, asks⟩, cut⟩
    · rintro ⟨v, ⟨-, before, line, after, split, passed, asks⟩, cut⟩
      exact ⟨before, line, after, split, passed, parseEdit_none_iff.mpr ⟨v, asks, cut⟩⟩

/-! ### Safe texts -/

/-- Reading the text returns, and each field that it reads as bytes is an even
    number of hexadecimal digits, not none. -/
def Safe (text : String) : Prop :=
  fromText text ≠ none ∧ ∀ v, Reaches text v → (∃ bs, unhex v = some (.ok bs)) → IsHex v

/-- A text is safe exactly when no field that is reached is cut inside a character or
    has a sign. -/
theorem safe_iff (text : String) : Safe text ↔ ∀ v, Reaches text v → ¬Splits v ∧ ¬Signed v := by
  constructor
  · rintro ⟨returns, digits⟩ v reached
    constructor
    · exact fun cut => returns (fromText_none_iff.mpr ⟨v, reached, cut⟩)
    · exact fun signed => signed_not_hex signed (digits v reached (unhex_ok_iff.mpr (.inr signed)))
  · intro plain
    constructor
    · intro panics
      obtain ⟨v, reached, cut⟩ := fromText_none_iff.mp panics
      exact (plain v reached).1 cut
    · intro v reached read
      exact (unhex_ok_iff.mp read).resolve_right (plain v reached).2

/-- A letter of two bytes after one of one byte. -/
def cutText : String := "e5r-patches 1\nedit expect=aéb by=\"\" note=\"\""

theorem cutText_panics : ¬∀ text, Safe text := by
  intro safe
  have chars : cutText.toList = _ := String.toList_ofList
  have panics : fromText cutText = none := by
    unfold fromText
    rw [chars]
    decide
  exact (safe cutText).1 panics

end E5r.PatchReads
