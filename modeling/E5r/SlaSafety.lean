import E5r.InflateSafety
import E5r.SlaAccepted

/-!
# Which payloads stop the reader of `.sla` files

Inflating stops on no bytes. Decoding stops exactly where the length of a string, added to the
position of its bytes, leaves the word: the sum wraps past the check and the slice is inverted.
-/

namespace E5r.SlaSafety

open Outcomes CheckedWords SlaTree SlaTokens SlaRoundTrip SlaAccepted Relation

/-- In this state the decoder reads an attribute whose value is a string of `raw` bytes from `p` on,
as its chunks say. -/
def ReadsText (arith : Arith) (data : List UInt8) (s : State) (p raw : ℕ) : Prop :=
  s.root = none ∧ s.pos < data.length ∧ ∃ kind id start head next,
    tag arith data s.pos = .ok (kind, id, start) ∧ (kind = 6 ∨ kind = 7) ∧
      byte arith data start = .ok (head, next) ∧ head >>> 4 = V_STRING ∧
        chunks arith data (head &&& 0x0f).toNat next = .ok (raw, p)

/-- No string the decoder comes to has a length that is a word and leaves it at its position. -/
def LengthsFit (arith : Arith) (data : List UInt8) : Prop :=
  ∀ s, ReflTransGen (Turns arith data) ⟨0, [], none⟩ s → ∀ p raw, ReadsText arith data s p raw →
    2 ^ 64 ≤ raw ∨ p + raw < 2 ^ 64

section

variable {arith : Arith} (exact : Exact arith) {data : List UInt8} (short : data.length < 2 ^ 63)

include exact in
theorem sum_leaves {a b : ℕ} (small : b < 2 ^ 64) (over_ : 2 ^ 64 ≤ a + b) :
    (sum arith a b : Reads ℕ) = .crash ∨ ∃ c, (sum arith a b : Reads ℕ) = .ok c ∧ c < a := by
  unfold sum
  cases added : arith.add a b with
  | none => exact .inl rfl
  | some c =>
    have word := exact.word added
    rcases exact.shows small added with same | less
    · omega
    · exact .inr ⟨c, rfl, less⟩

include exact short

theorem text_crash_iff {at_ pos raw : ℕ} (start : pos ≤ data.length) :
    text arith data at_ pos raw = .crash ↔ raw < 2 ^ 64 ∧ 2 ^ 64 ≤ pos + raw := by
  unfold text
  by_cases word : raw < 2 ^ 64
  · simp only [if_pos word, ok_bind]
    by_cases over_ : 2 ^ 64 ≤ pos + raw
    · refine iff_of_true ?_ ⟨word, over_⟩
      rcases sum_leaves exact word over_ with none_ | ⟨c, added, less⟩
      · rw [none_, crash_bind]
      · rw [added, ok_bind, if_neg (by omega)]
        have inverted : (slice data pos c : Reads (List UInt8)) = .crash := if_neg (by omega)
        rw [inverted, crash_bind]
    · refine iff_of_false (fun crash => ?_) fun both => over_ both.2
      rw [sum_exact exact (by omega), ok_bind] at crash
      split at crash
      · cases crash
      · rw [slice_of_le (by omega) (by omega), ok_bind] at crash
        cases decoded : String.fromUTF8? ⟨((data.take (pos + raw)).drop pos).toArray⟩ with
        | none => rw [decoded] at crash; cases crash
        | some s => rw [decoded] at crash; cases crash
  · refine iff_of_false (fun crash => ?_) fun both => word both.1
    simp only [if_neg word] at crash
    cases crash

theorem value_crash_iff {pos : ℕ} (start : pos ≤ data.length) :
    value arith data pos = .crash ↔ ∃ head next raw p, byte arith data pos = .ok (head, next) ∧
      head >>> 4 = V_STRING ∧ chunks arith data (head &&& 0x0f).toNat next = .ok (raw, p) ∧
        raw < 2 ^ 64 ∧ 2 ^ 64 ≤ p + raw := by
  have few : ∀ head : UInt8, (head &&& 0x0f).toNat ≤ 16 := by
    intro head
    have small : (head &&& 0x0f).toNat < 2 ^ 4 := by
      rw [UInt8.toNat_and]
      exact Nat.and_lt_two_pow _ (by decide)
    omega
  constructor
  · intro crash
    rcases bind_crash_iff.mp crash with crash | ⟨⟨head, next⟩, first, crash⟩
    · rcases Nat.lt_or_ge pos data.length with inside | outside
      · rw [byte_inside exact short inside] at crash
        cases crash
      · rw [byte, List.getElem?_eq_none outside] at crash
        cases crash
    · obtain ⟨rfl, inside⟩ := byte_ok exact short first
      dsimp only at crash
      split at crash
      · cases crash
      rcases bind_crash_iff.mp crash with crash | ⟨⟨raw, p⟩, found, crash⟩
      · exact absurd crash (chunks_ne_crash exact short (few head) inside)
      · obtain ⟨rfl, within, -⟩ := chunks_ok exact short (few head) inside found
        dsimp only at crash
        split at crash
        · next isText =>
          exact ⟨head, _, raw, _, first, isText, found, (text_crash_iff exact short within).mp crash⟩
        · cases crash
  · rintro ⟨head, next, raw, p, first, isText, found, leaves⟩
    obtain ⟨rfl, inside⟩ := byte_ok exact short first
    obtain ⟨rfl, within, -⟩ := chunks_ok exact short (few head) inside found
    rw [value, first, ok_bind]
    dsimp only
    rw [if_neg (by rw [isText]; decide), found, ok_bind]
    dsimp only
    rw [if_pos isText]
    exact (text_crash_iff exact short within).mpr leaves

omit exact short in
theorem tag_kind {pos start : ℕ} {kind : UInt8} {id : UInt32} (read : tag arith data pos = .ok (kind, id, start)) :
    (kind = 2 ∨ kind = 3) ∨ (kind = 4 ∨ kind = 5) ∨ kind = 6 ∨ kind = 7 := by
  obtain ⟨⟨head, one⟩, -, read⟩ := bind_ok_iff.mp read
  dsimp only at read
  split at read
  · next brief =>
    obtain ⟨⟨v, last⟩, -, read⟩ := bind_ok_iff.mp read
    cases read
    rcases brief with is | is | is <;> simp [is]
  split at read
  · next extended =>
    obtain ⟨⟨v, last⟩, -, read⟩ := bind_ok_iff.mp read
    cases read
    rcases extended with is | is | is <;> simp [is]
  · cases read

theorem turn_crash_iff {s : State} (inside : s.pos < data.length) :
    turn arith data s = .crash ↔ ∃ p raw, ReadsText arith data s p raw ∧ raw < 2 ^ 64 ∧ 2 ^ 64 ≤ p + raw := by
  constructor
  · intro crash
    unfold turn at crash
    split at crash
    · cases crash
    next open_ =>
    have none_ : s.root = none := by simpa using open_
    rcases bind_crash_iff.mp crash with crash | ⟨⟨kind, id, start⟩, read, crash⟩
    · exact absurd crash (tag_ne_crash exact short inside)
    obtain ⟨-, within, -⟩ := tag_ok exact short read
    dsimp only at crash
    split at crash
    · split at crash <;> cases crash
    next notOpen =>
    split at crash
    · split at crash
      · cases crash
      · split at crash
        · cases crash
        · split at crash <;> cases crash
    next notClose =>
    have isAttribute : kind = 6 ∨ kind = 7 := by
      rcases tag_kind read with is | is | is
      · exact absurd is notOpen
      · exact absurd is notClose
      · exact is
    rcases bind_crash_iff.mp crash with crash | ⟨⟨v, last⟩, -, crash⟩
    · obtain ⟨head, next, raw, p, first, isText, found, leaves⟩ := (value_crash_iff exact short within).mp crash
      exact ⟨p, raw, ⟨none_, inside, kind, id, start, head, next, read, isAttribute, first, isText, found⟩, leaves⟩
    · dsimp only at crash
      split at crash <;> cases crash
  · rintro ⟨p, raw, ⟨none_, -, kind, id, start, head, next, read, isAttribute, first, isText, found⟩, leaves⟩
    obtain ⟨-, within, -⟩ := tag_ok exact short read
    have notOpen : ¬(kind = 2 ∨ kind = 3) := by rcases isAttribute with rfl | rfl <;> decide
    have notClose : ¬(kind = 4 ∨ kind = 5) := by rcases isAttribute with rfl | rfl <;> decide
    have crash := (value_crash_iff exact short within).mpr ⟨head, next, raw, p, first, isText, found, leaves⟩
    rw [turn, if_neg (by simp [none_]), read, ok_bind]
    dsimp only
    rw [if_neg notOpen, if_neg notClose, crash, crash_bind]

theorem turns_crash_iff {fuel : ℕ} : ∀ {s : State}, data.length - s.pos ≤ fuel →
    (turns arith data fuel s = .crash ↔ ∃ s', ReflTransGen (Turns arith data) s s' ∧ s'.pos < data.length ∧
      turn arith data s' = .crash) := by
  have ended : ∀ {s : State}, ¬s.pos < data.length →
      (finish s = .crash ↔ ∃ s', ReflTransGen (Turns arith data) s s' ∧ s'.pos < data.length ∧
        turn arith data s' = .crash) := by
    intro s over_
    refine iff_of_false ?_ ?_
    · unfold finish
      split <;> nofun
    · rintro ⟨s', runs, inside, -⟩
      cases runs.cases_head with
      | inl same => exact over_ (same ▸ inside)
      | inr step =>
        obtain ⟨_, first, -⟩ := step
        exact over_ first.1
  induction fuel with
  | zero =>
    intro s enough
    rw [turns, if_neg (by omega)]
    exact ended (by omega)
  | succ fuel ih =>
    intro s enough
    rw [turns]
    by_cases inside : s.pos < data.length
    · rw [if_pos inside, bind_crash_iff]
      constructor
      · rintro (crash | ⟨next, turned, crash⟩)
        · exact ⟨s, .refl, inside, crash⟩
        · have forward := turned_forward (turn_turned exact short ⟨inside, turned⟩)
          obtain ⟨s', runs, within, stops⟩ := (ih (by omega)).mp crash
          exact ⟨s', .head ⟨inside, turned⟩ runs, within, stops⟩
      · rintro ⟨s', runs, within, stops⟩
        cases runs.cases_head with
        | inl same => exact .inl (same ▸ stops)
        | inr step =>
          obtain ⟨next, first, later⟩ := step
          have forward := turned_forward (turn_turned exact short first)
          exact .inr ⟨next, first.2, (ih (by omega)).mpr ⟨s', later, within, stops⟩⟩
    · rw [if_neg inside]
      exact ended inside

theorem decode_returns_iff : decode arith data ≠ .crash ↔ LengthsFit arith data := by
  have runs : decode arith data = .crash ↔ ∃ s, ReflTransGen (Turns arith data) ⟨0, [], none⟩ s ∧
      s.pos < data.length ∧ turn arith data s = .crash := by
    unfold decode
    split
    · next empty =>
      obtain rfl := List.isEmpty_iff.mp empty
      refine iff_of_false nofun ?_
      rintro ⟨s, -, inside, -⟩
      exact absurd inside (by simp)
    · exact turns_crash_iff exact short (by simp)
  rw [ne_eq, runs]
  constructor
  · intro safe s reached p raw reads
    by_contra leaves
    push Not at leaves
    exact safe ⟨s, reached, reads.2.1, (turn_crash_iff exact short reads.2.1).mpr ⟨p, raw, reads, leaves⟩⟩
  · rintro fit ⟨s, reached, inside, crash⟩
    obtain ⟨p, raw, reads, word, leaves⟩ := (turn_crash_iff exact short inside).mp crash
    have := fit s reached p raw reads
    omega

end

/-- Reading a payload and inflating a stream, under any limit, give a result or an error, and never
more than the limit, exactly when every string's length leaves the decoder in its words. -/
theorem readers_return_iff {arith : Arith} (exact : Exact arith) {data : List UInt8}
    (short : data.length < 2 ^ 63) (limit : ℕ) :
    (decode arith data ≠ .crash ∧ InflateWords.inflate data limit ≠ .crash ∧
      InflateWords.inflateZlib data limit ≠ .crash ∧
      (∀ out, InflateWords.inflate data limit = .ok out → out.length ≤ limit) ∧
      ∀ out, InflateWords.inflateZlib data limit = .ok out → out.length ≤ limit) ↔ LengthsFit arith data := by
  have raw := InflateSafety.follows_inflate limit short
  have zlib := InflateSafety.follows_inflateZlib limit short
  rw [← decode_returns_iff exact short]
  constructor
  · exact fun holds => holds.1
  · refine fun decodes => ⟨decodes, follows_ne_crash raw, follows_ne_crash zlib, fun out answer => ?_, fun out answer => ?_⟩
    · exact InflateSafety.inflate_limit (follows_answer raw answer).1
    · exact InflateSafety.inflateZlib_limit (follows_answer zlib answer).1

/-- An attribute with an empty string leaves the decoder in its words. -/
theorem empty_string_fits : LengthsFit wrapping [0x41, 0xc1, 0x70, 0x81] :=
  (readers_return_iff exact_wrapping (by decide) 0).mp
    ⟨by
      have read : decode wrapping [0x41, 0xc1, 0x70, 0x81] = .ok ⟨1, [(1, .text "")], [], 0, 4⟩ := rfl
      rw [read]
      nofun, follows_ne_crash (InflateSafety.follows_inflate 0 (by decide)),
      follows_ne_crash (InflateSafety.follows_inflateZlib 0 (by decide)),
      fun out answer => InflateSafety.inflate_limit (follows_answer (InflateSafety.follows_inflate 0 (by decide)) answer).1,
      fun out answer =>
        InflateSafety.inflateZlib_limit (follows_answer (InflateSafety.follows_inflateZlib 0 (by decide)) answer).1⟩

/-- A length of `2 ^ 64 - 1` wraps past the check, and the slice of the string is inverted. -/
theorem long_string_stops : ¬∀ (data : List UInt8) (limit : ℕ), data.length < 2 ^ 63 →
    decode wrapping data ≠ .crash ∧ InflateWords.inflate data limit ≠ .crash ∧
      InflateWords.inflateZlib data limit ≠ .crash := by
  intro all
  exact (all [0x41, 0xc1, 0x7a, 0x81, 0xff, 0xff, 0xff, 0xff, 0xff, 0xff, 0xff, 0xff, 0xff] 0 (by decide)).1 rfl

end E5r.SlaSafety
