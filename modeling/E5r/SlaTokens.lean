import E5r.SlaTree

/-!
# Tags and values of a `.sla` payload

What the decoder takes from the bytes the encoder writes for one tag or one value, and what it can
take from any bytes.
-/

namespace E5r.SlaTokens

open Outcomes CheckedWords SlaTree

theorem pushChunks_succ (v n : ℕ) :
    pushChunks v (n + 1) = (0x80 ||| (UInt8.ofNat (v >>> (n * 7)) &&& 0x7f)) :: pushChunks v n := by
  simp [pushChunks, List.range_succ]

@[simp] theorem length_pushChunks (v n : ℕ) : (pushChunks v n).length = n := by
  simp [pushChunks]

theorem chunk_bits (v : ℕ) :
    ((0x80 ||| (UInt8.ofNat v &&& 0x7f)) &&& 0x7f : UInt8).toNat = v % 128 := by
  have all : ∀ b : Fin 256, ((0x80 ||| (UInt8.ofNat b.val &&& 0x7f)) &&& 0x7f : UInt8).toNat = b.val % 128 := by
    decide +kernel
  have small : UInt8.ofNat v = UInt8.ofNat (v % 256) := by
    apply UInt8.toNat_inj.mp
    simp
  rw [small]
  have here := all ⟨v % 256, Nat.mod_lt v (by decide)⟩
  simp only at here
  rw [here]
  omega

theorem chunkCount_le_iff (v : ℕ) : ∀ n, chunkCount v ≤ n ↔ v < 128 ^ n := by
  fun_induction chunkCount v with
  | case1 => simp
  | case2 v some ih =>
    rintro (_ | n)
    · simp [some]
    · rw [Nat.add_le_add_iff_right, ih, Nat.shiftRight_eq_div_pow, Nat.div_lt_iff_lt_mul (by decide),
        show 2 ^ 7 = 128 from rfl, Nat.pow_succ]

section

variable {arith : Arith} (exact : Exact arith) {data : List UInt8} (short : data.length < 2 ^ 63)

variable {pos : ℕ} {b : UInt8}

theorem drop_next {rest : List UInt8} (here : data.drop pos = b :: rest) :
    data[pos]? = some b ∧ pos < data.length ∧ data.drop (pos + 1) = rest := by
  have first : data[pos]? = some b := by
    have step : (data.drop pos)[0]? = data[pos + 0]? := List.getElem?_drop
    rw [here] at step
    simpa using step.symm
  refine ⟨first, (List.getElem?_eq_some_iff.mp first).1, ?_⟩
  rw [← List.drop_drop, here]
  rfl

theorem drop_append {front rest : List UInt8} (here : data.drop pos = front ++ rest) :
    data.drop (pos + front.length) = rest := by
  rw [← List.drop_drop, here, List.drop_left]

theorem drop_inside {front rest : List UInt8} (here : data.drop pos = front ++ rest) (some_ : front ≠ []) :
    pos + front.length ≤ data.length := by
  have lengths := congrArg List.length here
  rw [List.length_drop, List.length_append] at lengths
  have := List.length_pos_of_ne_nil some_
  omega

include exact short

theorem byte_takes {rest : List UInt8} (here : data.drop pos = b :: rest) : byte arith data pos = .ok (b, pos + 1) := by
  obtain ⟨first, inside, -⟩ := drop_next here
  rw [byte, first]
  simp [Outcome.orErr, sum_exact exact (show pos + 1 < 2 ^ 64 by omega)]

theorem byte_ok {next : ℕ} (read : byte arith data pos = .ok (b, next)) : next = pos + 1 ∧ pos < data.length := by
  obtain ⟨c, found, read⟩ := bind_ok_iff.mp read
  cases there : data[pos]? with
  | none => rw [there] at found; cases found
  | some d =>
    have inside := (List.getElem?_eq_some_iff.mp there).1
    rw [sum_exact exact (by omega)] at read
    cases read
    exact ⟨rfl, inside⟩

variable {v : ℕ}

theorem chunksFrom_takes (n : ℕ) : ∀ {pos a : ℕ} {rest : List UInt8},
    data.drop pos = pushChunks v n ++ rest →
      chunksFrom arith data n pos a = .ok (a * 128 ^ n + v % 128 ^ n, pos + n) := by
  induction n with
  | zero =>
    intro pos a rest _
    simp [chunksFrom, Nat.mod_one]
  | succ n ih =>
    intro pos a rest here
    rw [pushChunks_succ, List.cons_append] at here
    obtain ⟨first, inside, later⟩ := drop_next here
    rw [chunksFrom, at_, first, sum_exact exact (by omega)]
    simp only [Outcome.orCrash, ok_bind, ih later, chunk_bits]
    have joined : (a <<< 7 ||| v >>> (n * 7) % 128) = a * 128 + v / 128 ^ n % 128 := by
      rw [← Nat.shiftLeft_add_eq_or_of_lt (i := 7) (Nat.mod_lt _ (by decide)), Nat.shiftLeft_eq,
        Nat.shiftRight_eq_div_pow, Nat.mul_comm n 7, Nat.pow_mul]
    have split : v % 128 ^ (n + 1) = v % 128 ^ n + 128 ^ n * (v / 128 ^ n % 128) := by
      rw [Nat.pow_succ, Nat.mod_mul]
    have order : pos + 1 + n = pos + (n + 1) := by omega
    have value : (a * 128 + v / 128 ^ n % 128) * 128 ^ n + v % 128 ^ n
        = a * 128 ^ (n + 1) + (v % 128 ^ n + 128 ^ n * (v / 128 ^ n % 128)) := by ring
    rw [joined, split, order, value]

variable {n : ℕ}

theorem chunks_takes {rest : List UInt8} (small : v < 128 ^ n) (here : data.drop pos = pushChunks v n ++ rest)
    (start : pos ≤ data.length) : chunks arith data n pos = .ok (v, pos + n) := by
  have inside : pos + n ≤ data.length := by
    have lengths := congrArg List.length here
    rw [List.length_drop, List.length_append, length_pushChunks] at lengths
    omega
  rw [chunks, sum_exact exact (by omega), ok_bind, if_neg (by omega),
    chunksFrom_takes exact short n here, Nat.mod_eq_of_lt small]
  simp

theorem chunksFrom_ok (n : ℕ) : ∀ pos a : ℕ, pos + n ≤ data.length →
    ∃ v, v < (a + 1) * 128 ^ n ∧ chunksFrom arith data n pos a = .ok (v, pos + n) := by
  induction n with
  | zero => exact fun pos a _ => ⟨a, by simp, rfl⟩
  | succ n ih =>
    intro pos a inside
    rw [chunksFrom, at_ne_crash (show pos < data.length by omega), sum_exact exact (by omega)]
    simp only [ok_bind]
    obtain ⟨v, small, read⟩ := ih (pos + 1) (a <<< 7 ||| (data[pos] &&& 0x7f).toNat) (by omega)
    refine ⟨v, small.trans_le ?_, by rw [read]; congr 2; omega⟩
    have bits : (data[pos] &&& 0x7f).toNat < 2 ^ 7 := by
      rw [UInt8.toNat_and]
      exact Nat.and_lt_two_pow _ (by decide)
    rw [← Nat.shiftLeft_add_eq_or_of_lt bits, Nat.shiftLeft_eq,
      show (a + 1) * 128 ^ (n + 1) = (a + 1) * 2 ^ 7 * 128 ^ n by ring]
    apply Nat.mul_le_mul_right
    omega

theorem chunks_ne_crash (few : n ≤ 16) (start : pos ≤ data.length) : chunks arith data n pos ≠ .crash := by
  rw [chunks, sum_exact exact (by omega), ok_bind]
  split
  · nofun
  · obtain ⟨v, -, read⟩ := chunksFrom_ok exact short n pos 0 (by omega)
    rw [read]
    nofun

theorem chunks_ok {next : ℕ} (few : n ≤ 16) (start : pos ≤ data.length)
    (read : chunks arith data n pos = .ok (v, next)) : next = pos + n ∧ next ≤ data.length ∧ v < 128 ^ n := by
  rw [chunks, sum_exact exact (by omega), ok_bind] at read
  split at read
  · cases read
  · obtain ⟨w, small, found⟩ := chunksFrom_ok exact short n pos 0 (by omega)
    rw [found] at read
    cases read
    exact ⟨rfl, by omega, by simpa using small⟩

/-- The two forms of a tag, whose kinds differ in the lowest bit. -/
def Forms (brief extended kind : UInt8) : Prop :=
  (brief, extended, kind) ∈ [(T_ELEMENT_START, T_ELEMENT_START_EXT, (2 : UInt8)),
    (T_ELEMENT_END, T_ELEMENT_END_EXT, 4), (T_ATTRIBUTE, T_ATTRIBUTE_EXT, 6)]

variable {brief : UInt8}

omit exact short in
theorem brief_head {extended kind : UInt8} (forms : Forms brief extended kind) {id : UInt32} (small : id < 32) :
    (brief ||| id.toUInt8) >>> 5 = kind ∧ ((brief ||| id.toUInt8) &&& 0x1f).toNat = id.toNat ∧
      (kind = 2 ∨ kind = 4 ∨ kind = 6) := by
  have same : id.toUInt8 = UInt8.ofNat id.toNat := by
    apply UInt8.toNat_inj.mp
    simp
  have low : id.toNat < 32 := by simpa [UInt32.lt_iff_toNat_lt] using small
  rw [same]
  generalize id.toNat = n at low ⊢
  simp only [Forms, List.mem_cons, Prod.mk.injEq, List.not_mem_nil, or_false] at forms
  rcases forms with ⟨rfl, rfl, rfl⟩ | ⟨rfl, rfl, rfl⟩ | ⟨rfl, rfl, rfl⟩
  all_goals
    revert n
    decide

omit exact short in
theorem extended_head {extended kind : UInt8} (forms : Forms brief extended kind) (few : n < 16) :
    (extended ||| (UInt8.ofNat n &&& 0x0f)) >>> 5 = kind + 1 ∧
      ((extended ||| (UInt8.ofNat n &&& 0x0f)) &&& 0x0f).toNat = n ∧
      (kind = 2 ∨ kind = 4 ∨ kind = 6) := by
  simp only [Forms, List.mem_cons, Prod.mk.injEq, List.not_mem_nil, or_false] at forms
  rcases forms with ⟨rfl, rfl, rfl⟩ | ⟨rfl, rfl, rfl⟩ | ⟨rfl, rfl, rfl⟩
  all_goals
    revert n
    decide

omit exact short in
theorem chunkCount_id (id : UInt32) : chunkCount id.toNat ≤ 5 := by
  rw [chunkCount_le_iff]
  have := id.toNat_lt
  omega

omit exact short in
theorem min_id (id : UInt32) : UInt32.ofNat (min id.toNat (2 ^ 32 - 1)) = id := by
  have := id.toNat_lt
  rw [Nat.min_eq_left (by omega)]
  simp

theorem tag_takes {extended kind : UInt8} (forms : Forms brief extended kind) {id : UInt32} {rest : List UInt8}
    (here : data.drop pos = pushTag brief extended id ++ rest) :
    ∃ k, (k = kind ∨ k = kind + 1) ∧
      tag arith data pos = .ok (k, id, pos + (pushTag brief extended id).length) := by
  unfold pushTag at here ⊢
  split at here
  · next small =>
    obtain ⟨kinds, ids, which⟩ := brief_head forms small
    refine ⟨kind, .inl rfl, ?_⟩
    rw [if_pos small, tag, byte_takes exact short here, ok_bind]
    simp only [kinds, if_pos which, ok_bind, ids, min_id, pure_eq]
    rfl
  · next large =>
    have count := chunkCount_id id
    obtain ⟨kinds, counts, which⟩ := extended_head forms (n := max (chunkCount id.toNat) 1 - 1) (by omega)
    refine ⟨kind + 1, .inr rfl, ?_⟩
    obtain ⟨-, inside, later⟩ := drop_next here
    have read := chunks_takes exact short (n := max (chunkCount id.toNat) 1)
      ((chunkCount_le_iff _ _).mp (Nat.le_max_left _ _)) later inside
    have notBrief : ¬(kind + 1 = 2 ∨ kind + 1 = 4 ∨ kind + 1 = 6) := by
      rcases which with rfl | rfl | rfl <;> decide
    have isExtended : kind + 1 = 3 ∨ kind + 1 = 5 ∨ kind + 1 = 7 := by
      rcases which with rfl | rfl | rfl <;> decide
    rw [if_neg large, tag, byte_takes exact short here, ok_bind]
    simp only [kinds, if_neg notBrief, if_pos isExtended, counts]
    rw [show max (chunkCount id.toNat) 1 - 1 + 1 = max (chunkCount id.toNat) 1 by omega, read]
    simp only [ok_bind, min_id, pure_eq, List.length_cons, length_pushChunks]
    congr 3
    omega

omit exact short in
theorem length_pushTag_le (brief extended : UInt8) (small : v < 128 ^ n) (some_ : 0 < n) :
    (pushTag brief extended (UInt32.ofNat (min v (2 ^ 32 - 1)))).length ≤ 1 + n := by
  unfold pushTag
  split
  · simp
  · have count : chunkCount (min v (2 ^ 32 - 1)) ≤ n :=
      (chunkCount_le_iff _ _).mpr (lt_of_le_of_lt (Nat.min_le_left _ _) small)
    have same : (UInt32.ofNat (min v (2 ^ 32 - 1))).toNat = min v (2 ^ 32 - 1) := by
      rw [UInt32.toNat_ofNat']
      exact Nat.mod_eq_of_lt (by omega)
    simp only [same, List.length_cons, length_pushChunks]
    omega

theorem tag_ok {next : ℕ} {kind : UInt8} {id : UInt32} (read : tag arith data pos = .ok (kind, id, next)) :
    pos < next ∧ next ≤ data.length ∧
      ∀ brief extended, (pushTag brief extended id).length ≤ next - pos := by
  obtain ⟨⟨head, one⟩, first, read⟩ := bind_ok_iff.mp read
  obtain ⟨rfl, inside⟩ := byte_ok exact short first
  dsimp only at read
  split at read
  · obtain ⟨⟨v, last⟩, found, read⟩ := bind_ok_iff.mp read
    cases found
    cases read
    refine ⟨by omega, inside, fun brief extended => ?_⟩
    have small : (head &&& 0x1f).toNat < 2 ^ 5 := by
      rw [UInt8.toNat_and]
      exact Nat.and_lt_two_pow _ (by decide)
    rw [pushTag, if_pos]
    · simp
    · rw [UInt32.lt_iff_toNat_lt, Nat.min_eq_left (by omega), UInt32.toNat_ofNat', Nat.mod_eq_of_lt (by omega)]
      exact small
  split at read
  · obtain ⟨⟨v, last⟩, found, read⟩ := bind_ok_iff.mp read
    cases read
    have few : (head &&& 0x0f).toNat < 2 ^ 4 := by
      rw [UInt8.toNat_and]
      exact Nat.and_lt_two_pow _ (by decide)
    obtain ⟨rfl, within, small⟩ := chunks_ok exact short (by omega) inside found
    refine ⟨by omega, within, fun brief extended => ?_⟩
    have := length_pushTag_le brief extended small (by omega)
    dsimp only
    omega
  · cases read

theorem byte_inside (inside : pos < data.length) : byte arith data pos = .ok (data[pos], pos + 1) :=
  byte_takes exact short (List.drop_eq_getElem_cons inside)

theorem tag_ne_crash (inside : pos < data.length) : tag arith data pos ≠ .crash := by
  rw [tag, byte_inside exact short inside, ok_bind]
  dsimp only
  split
  · nofun
  split
  · have few : (data[pos] &&& 0x0f).toNat < 2 ^ 4 := by
      rw [UInt8.toNat_and]
      exact Nat.and_lt_two_pow _ (by decide)
    intro crash
    rcases bind_crash_iff.mp crash with crash | ⟨_, -, crash⟩
    · exact chunks_ne_crash exact short (by omega) inside crash
    · cases crash
  · nofun

omit exact short in
theorem value_head {kind : UInt8} (n : ℕ) (kinds : kind < 16) (few : n < 16) :
    ((kind <<< 4) ||| UInt8.ofNat n) >>> 4 = kind ∧
      (((kind <<< 4) ||| UInt8.ofNat n) &&& 0x0f).toNat = n := by
  have all : ∀ k n : Fin 16,
      ((UInt8.ofNat k.val <<< 4) ||| UInt8.ofNat n.val) >>> 4 = UInt8.ofNat k.val ∧
        (((UInt8.ofNat k.val <<< 4) ||| UInt8.ofNat n.val) &&& 0x0f).toNat = n.val := by
    decide
  have here := all ⟨kind.toNat, by simpa [UInt8.lt_iff_toNat_lt] using kinds⟩ ⟨n, few⟩
  simpa using here

/-- What a value can hold and be read back as: its integers fit 105 bits, its kind is none of the
others, and its text is no longer than a string can be. -/
def Holds : Value → Prop
  | .bool _ | .space _ => True
  | .signed v => v.natAbs < 2 ^ 105
  | .unsigned v => v < 2 ^ 105
  | .text s => (ByteCodec.bytesOf s).length < 2 ^ 63
  | .other kind v => v < 2 ^ 105 ∧ (kind = 0 ∨ kind = 6 ∨ 8 ≤ kind ∧ kind < 16)

omit exact short in
theorem pushValue_holds {v : Value} (holds : Holds v) : ∃ bs, pushValue v = .ok bs := by
  have pushes : ∀ (kind : UInt8) (m : ℕ), m < 2 ^ 105 → ∃ bs, pushTyped kind m = .ok bs := by
    intro kind m fits
    have few : chunkCount m ≤ 15 := (chunkCount_le_iff m 15).mpr (fits.trans_le (by decide))
    exact ⟨_, if_neg (by omega)⟩
  cases v with
  | bool b => exact ⟨_, rfl⟩
  | signed v =>
    simp only [Holds] at holds
    rw [pushValue]
    split
    · exact pushes _ _ holds
    · exact pushes _ _ (by omega)
  | unsigned v => exact pushes _ _ holds
  | space v => exact pushes _ _ (by have := v.toNat_lt; omega)
  | text s =>
    simp only [Holds] at holds
    have few : chunkCount (ByteCodec.bytesOf s).length ≤ 15 :=
      (chunkCount_le_iff _ 15).mpr (holds.trans_le (by decide))
    exact ⟨_, if_neg (by omega)⟩
  | other kind v => exact pushes _ _ holds.1

theorem typed_takes {kind : UInt8} {bs : List UInt8} (wrote : pushTyped kind v = .ok bs) (kinds : kind < 16)
    (number : kind ≠ V_BOOL ∧ kind ≠ V_STRING) {rest : List UInt8} (here : data.drop pos = bs ++ rest) :
    value arith data pos = .ok (typed kind v, pos + bs.length) := by
  simp only [pushTyped] at wrote
  split at wrote
  · cases wrote
  next few =>
  cases wrote
  obtain ⟨isKind, isCount⟩ := value_head (chunkCount v) kinds (by omega)
  obtain ⟨-, inside, later⟩ := drop_next here
  have read := chunks_takes exact short ((chunkCount_le_iff v _).mp le_rfl) later inside
  rw [value, byte_takes exact short here, ok_bind]
  simp only [isKind, isCount, if_neg number.1, if_neg number.2, read, ok_bind, pure_eq, List.length_cons,
    length_pushChunks]
  congr 2
  omega

theorem text_takes {s : String} {len at_ : ℕ} {rest : List UInt8} (length : (ByteCodec.bytesOf s).length = len)
    (start : pos ≤ data.length) (here : data.drop pos = ByteCodec.bytesOf s ++ rest) :
    text arith data at_ pos len = .ok (.text s, pos + len) := by
  have inside : pos + len ≤ data.length := by
    have lengths := congrArg List.length here
    rw [List.length_drop, List.length_append, length] at lengths
    omega
  have bytes : (data.take (pos + len)).drop pos = ByteCodec.bytesOf s := by
    rw [List.drop_take, here, ← length, Nat.add_sub_cancel_left, List.take_left]
  unfold text
  simp only [if_pos (show len < 2 ^ 64 by omega), ok_bind,
    sum_exact exact (show pos + len < 2 ^ 64 by omega), if_neg (show ¬pos + len > data.length by omega),
    slice_of_le (show pos ≤ pos + len by omega) inside, bytes, ByteCodec.fromUTF8_bytesOf]
  rfl

theorem value_takes {v : Value} {bs : List UInt8} (wrote : pushValue v = .ok bs) (holds : Holds v) {rest : List UInt8}
    (here : data.drop pos = bs ++ rest) : value arith data pos = .ok (v, pos + bs.length) := by
  cases v with
  | bool b =>
    cases wrote
    rw [value, byte_takes exact short here, ok_bind]
    cases b <;> rfl
  | signed v =>
    simp only [Holds] at holds
    simp only [pushValue] at wrote
    split at wrote
    · next negative =>
      rw [typed_takes exact short wrote (by decide) (by decide) here]
      have fits : v.natAbs < 2 ^ 127 := by omega
      simp only [typed, V_SIGNED_NEG, V_SIGNED_POS, show ((3 : UInt8) = 2) = False by decide, if_false, if_true,
        if_pos fits]
      congr 3
      omega
    · rw [typed_takes exact short wrote (by decide) (by decide) here]
      have fits : v.toNat < 2 ^ 127 := by omega
      simp only [typed, V_SIGNED_POS, if_true, if_pos fits]
      congr 3
      omega
  | unsigned v => exact typed_takes exact short wrote (by decide) (by decide) here
  | space v =>
    rw [typed_takes exact short wrote (by decide) (by decide) here]
    show Outcome.ok (Value.space _, _) = _
    rw [min_id]
  | text s =>
    simp only [Holds] at holds
    simp only [pushValue] at wrote
    split at wrote
    · cases wrote
    next few =>
    cases wrote
    obtain ⟨isKind, isCount⟩ := value_head (chunkCount (ByteCodec.bytesOf s).length)
      (show V_STRING < 16 by decide) (by omega)
    simp only [List.cons_append, List.append_assoc] at here
    obtain ⟨-, inside, later⟩ := drop_next here
    have read := chunks_takes exact short
      ((chunkCount_le_iff (ByteCodec.bytesOf s).length _).mp le_rfl) later inside
    have behind := drop_append later
    rw [length_pushChunks] at behind
    have within : pos + 1 + chunkCount (ByteCodec.bytesOf s).length ≤ data.length := by
      have lengths := congrArg List.length later
      rw [List.length_drop, List.length_append, length_pushChunks] at lengths
      omega
    rw [value, byte_takes exact short here, ok_bind]
    simp only [isKind, isCount, show (V_STRING = V_BOOL) = False by decide, if_false, if_true, read, ok_bind]
    rw [text_takes exact short rfl within behind]
    simp only [List.length_cons, List.length_append, length_pushChunks]
    congr 2
    omega
  | other kind v =>
    obtain ⟨-, kinds⟩ := holds
    have others : kind < 16 ∧ kind ≠ V_BOOL ∧ kind ≠ V_STRING ∧ kind ≠ V_SIGNED_POS ∧ kind ≠ V_SIGNED_NEG ∧
        kind ≠ V_UNSIGNED ∧ kind ≠ V_SPACE := by
      have all : ∀ k : Fin 256, (UInt8.ofNat k.val = 0 ∨ UInt8.ofNat k.val = 6 ∨
          8 ≤ UInt8.ofNat k.val ∧ UInt8.ofNat k.val < 16) → UInt8.ofNat k.val < 16 ∧
          UInt8.ofNat k.val ≠ V_BOOL ∧ UInt8.ofNat k.val ≠ V_STRING ∧ UInt8.ofNat k.val ≠ V_SIGNED_POS ∧
          UInt8.ofNat k.val ≠ V_SIGNED_NEG ∧ UInt8.ofNat k.val ≠ V_UNSIGNED ∧ UInt8.ofNat k.val ≠ V_SPACE := by
        decide +kernel
      have here := all ⟨kind.toNat, kind.toNat_lt⟩
      rw [UInt8.ofNat_toNat] at here
      exact here kinds
    rw [typed_takes exact short wrote others.1 ⟨others.2.1, others.2.2.1⟩ here, typed,
      if_neg others.2.2.2.1, if_neg others.2.2.2.2.1, if_neg others.2.2.2.2.2.1, if_neg others.2.2.2.2.2.2]

omit exact short in
theorem typed_holds {kind : UInt8} {raw : ℕ} (kinds : kind < 16) (number : kind ≠ V_BOOL ∧ kind ≠ V_STRING)
    (few : n ≤ 15) (small : raw < 128 ^ n) :
    Holds (typed kind raw) ∧ ∃ bs, pushValue (typed kind raw) = .ok bs ∧ bs.length ≤ 1 + n := by
  have bits : raw < 2 ^ 105 := small.trans_le (Nat.pow_le_pow_right (by decide) few)
  have pushes : ∀ (k : UInt8) (v : ℕ), v ≤ raw → ∃ bs, pushTyped k v = .ok bs ∧ bs.length ≤ 1 + n := by
    intro k v least
    have count : chunkCount v ≤ n := (chunkCount_le_iff v n).mpr (by omega)
    simp only [pushTyped, if_neg (show ¬chunkCount v > 15 by omega)]
    refine ⟨_, rfl, ?_⟩
    rw [List.length_cons, length_pushChunks]
    omega
  have fits : raw < 2 ^ 127 := by omega
  simp only [typed, if_pos fits]
  split
  · refine ⟨by simpa [Holds] using bits, ?_⟩
    rw [pushValue, if_neg (by omega)]
    exact pushes _ _ (by omega)
  split
  · refine ⟨by simpa [Holds] using bits, ?_⟩
    rw [pushValue]
    split
    · exact pushes _ _ (by omega)
    · exact pushes _ _ (by omega)
  split
  · exact ⟨bits, pushes _ _ le_rfl⟩
  split
  · refine ⟨trivial, pushes _ _ ?_⟩
    rw [UInt32.toNat_ofNat']
    exact (Nat.mod_le _ _).trans (Nat.min_le_left _ _)
  · next notPos notNeg notUnsigned notSpace =>
    refine ⟨⟨bits, ?_⟩, pushes _ _ le_rfl⟩
    have all : ∀ k : Fin 256, UInt8.ofNat k.val < 16 → UInt8.ofNat k.val ≠ V_BOOL →
        UInt8.ofNat k.val ≠ V_STRING → UInt8.ofNat k.val ≠ V_SIGNED_POS → UInt8.ofNat k.val ≠ V_SIGNED_NEG →
        UInt8.ofNat k.val ≠ V_UNSIGNED → UInt8.ofNat k.val ≠ V_SPACE →
        (UInt8.ofNat k.val = 0 ∨ UInt8.ofNat k.val = 6 ∨
          8 ≤ UInt8.ofNat k.val ∧ UInt8.ofNat k.val < 16) := by
      decide +kernel
    have here := all ⟨kind.toNat, kind.toNat_lt⟩
    rw [UInt8.ofNat_toNat] at here
    exact here kinds number.1 number.2 notPos notNeg notUnsigned notSpace

omit short in
theorem text_ok {at_ raw next : ℕ} {v : Value} (read : text arith data at_ pos raw = .ok (v, next)) :
    next = pos + raw ∧ next ≤ data.length ∧
      ∃ s, v = .text s ∧ (ByteCodec.bytesOf s).length = raw := by
  unfold text at read
  split at read
  · next small =>
    rw [ok_bind] at read
    obtain ⟨last, summed, read⟩ := bind_ok_iff.mp read
    split at read
    · cases read
    next inside =>
    obtain ⟨bytes, sliced, read⟩ := bind_ok_iff.mp read
    obtain ⟨s, decoded, read⟩ := bind_ok_iff.mp read
    cases read
    simp only [slice] at sliced
    split at sliced
    · next order =>
      cases sliced
      obtain rfl : next = pos + raw := by
        rcases sum_shows exact small summed with same | wrapped
        · exact same
        · omega
      refine ⟨rfl, order.2, s, rfl, ?_⟩
      simp only [String.fromUTF8?] at decoded
      split at decoded
      · cases decoded
        show ((data.take (pos + raw)).drop pos).toArray.toList.length = raw
        rw [List.toList_toArray, List.length_drop, List.length_take]
        omega
      · cases decoded
    · cases sliced
  · cases read

theorem value_ok {next : ℕ} {v : Value} (read : value arith data pos = .ok (v, next)) :
    pos < next ∧ next ≤ data.length ∧ Holds v ∧
      ∃ bs, pushValue v = .ok bs ∧ bs.length ≤ next - pos := by
  obtain ⟨⟨head, one⟩, first, read⟩ := bind_ok_iff.mp read
  obtain ⟨rfl, inside⟩ := byte_ok exact short first
  dsimp only at read
  split at read
  · cases read
    exact ⟨by omega, inside, trivial, _, rfl, by simp⟩
  next notBool =>
  obtain ⟨⟨raw, last⟩, found, read⟩ := bind_ok_iff.mp read
  have few : (head &&& 0x0f).toNat < 2 ^ 4 := by
    rw [UInt8.toNat_and]
    exact Nat.and_lt_two_pow _ (by decide)
  obtain ⟨rfl, within, small⟩ := chunks_ok exact short (by omega) inside found
  dsimp only at read
  split at read
  · obtain ⟨rfl, within, s, rfl, length⟩ := text_ok exact read
    have count : chunkCount raw ≤ (head &&& 0x0f).toNat := (chunkCount_le_iff raw _).mpr small
    refine ⟨by omega, within, ?_, ?_⟩
    · simp only [Holds]
      omega
    · simp only [pushValue, length, if_neg (show ¬chunkCount raw > 15 by omega)]
      refine ⟨_, rfl, ?_⟩
      simp only [List.cons_append, List.length_cons, List.length_append, length_pushChunks, length]
      omega
  · next notString =>
    cases read
    have kinds : head >>> 4 < 16 := by
      have all : ∀ b : Fin 256, UInt8.ofNat b.val >>> 4 < 16 := by decide +kernel
      have here := all ⟨head.toNat, head.toNat_lt⟩
      rwa [UInt8.ofNat_toNat] at here
    obtain ⟨holds, bs, wrote, length⟩ := typed_holds kinds ⟨notBool, notString⟩ (by omega) small
    exact ⟨by omega, within, holds, bs, wrote, by omega⟩

end

end E5r.SlaTokens
