import E5r.WordMixing

/-!
The file of one cache entry: a header that names the format, the analysis part and the
key, the payload, and a checksum of everything before it. A file is an entry only when
it is, byte for byte, the one that was written, and damage to one word of it changes
the checksum.
-/
namespace E5r.CacheEntry
open Function WordMixing
open Cursor (leNat leNat_lt)

/-- Which analysis result an entry holds. -/
inductive Part where
  | functions | xrefs | strings
deriving DecidableEq

/-- The byte that identifies the part inside a file. -/
def Part.code : Part → UInt8
  | .functions => 1
  | .xrefs => 2
  | .strings => 3

structure Key where
  bytes : List UInt8
  sixteen : bytes.length = 16
deriving DecidableEq

def formatVersion : ℕ := 1

/-- `E5RCACHE`. -/
def magic : List UInt8 := [0x45, 0x35, 0x52, 0x43, 0x41, 0x43, 0x48, 0x45]

def headerLen : ℕ := 8 + 4 + 1 + 16 + 8

/-! ### The hash -/

def prime : BitVec 64 := 0x9e3779b97f4a7c15

/-- What one word does to the state. -/
def round (h w : BitVec 64) : BitVec 64 :=
  ((h ^^^ (w * prime).rotateLeft 31) * prime).rotateLeft 27 + 0x165667b1

/-- `u64::from_le_bytes`. -/
def fromLeBytes (bytes : List UInt8) : BitVec 64 := BitVec.ofNat 64 (leNat bytes)

/-- The words of `chunks_exact(8)` and what is left behind them. -/
def chunk (data : List UInt8) (i : ℕ) : List UInt8 := (data.drop (8 * i)).take 8
def remainder (data : List UInt8) : List UInt8 := data.drop (8 * (data.length / 8))

def tailOf (bytes : List UInt8) : BitVec 64 :=
  bytes.zipIdx.foldl (fun tail b => tail ||| BitVec.ofNat 64 b.1.toNat <<< (b.2 * 8)) 0

def avalanche (h : BitVec 64) : BitVec 64 :=
  let h := h ^^^ (h >>> 33)
  let h := h * 0xff51afd7ed558ccd
  let h := h ^^^ (h >>> 29)
  let h := h * 0xc4ceb9fe1a85ec53
  h ^^^ (h >>> 32)

def hash64Seeded (data : List UInt8) (seed : BitVec 64) : BitVec 64 :=
  let h := seed ^^^ (BitVec.ofNat 64 data.length * prime)
  let h := (List.range (data.length / 8)).foldl (fun h i => round h (fromLeBytes (chunk data i))) h
  let h := h ^^^ (tailOf (remainder data) * prime)
  avalanche h

/-- The checksum. -/
def hash64 (data : List UInt8) : BitVec 64 := hash64Seeded data 0x517cc1b727220a95

/-! ### Entries -/

/-- What the checksum of an entry covers. -/
def body (part : Part) (key : Key) (payload : List UInt8) : List UInt8 :=
  magic ++ leBytes 4 formatVersion ++ [part.code] ++ key.bytes ++ leBytes 8 payload.length ++ payload

/-- The bytes that `put` writes. -/
def entry (part : Part) (key : Key) (payload : List UInt8) : List UInt8 :=
  body part key payload ++ leBytes 8 (hash64 (body part key payload)).toNat

/-- A sum of two `usize`, or nothing when it does not fit. -/
def addUsize (a b : ℕ) : Option ℕ := if a + b < 2 ^ 64 then some (a + b) else none

/-- A slice of some bytes, or nothing when it lies outside. -/
def slice (bytes : List UInt8) (start stop : ℕ) : Option (List UInt8) :=
  if start ≤ stop ∧ stop ≤ bytes.length then some ((bytes.take stop).drop start) else none

/-- Check the header and the checksum and hand back the payload. An addition that does
    not fit and a slice outside of the file end the program, which is `none`. A file for
    another key or version is `ok none`. -/
def decodeEntry (bytes : List UInt8) (part : Part) (key : Key) : Option (Except String (Option (List UInt8))) :=
  if bytes.length < headerLen + 8 then some (.error s!"{bytes.length} bytes, shorter than a header") else do
  let start ← slice bytes 0 8
  if start ≠ magic then some (.error "bad magic") else do
  let version ← slice bytes 8 12
  if leNat version ≠ formatVersion then some (.ok none) else do
  let code ← bytes[12]?
  if code ≠ part.code then some (.ok none) else do
  let id ← slice bytes 13 29
  if id ≠ key.bytes then some (.ok none) else do
  let len ← slice bytes 29 37
  let len := leNat len
  match addUsize headerLen len with
  | none => some (.error "payload length overflows")
  | some stop => do
    let file ← addUsize stop 8
    if bytes.length ≠ file then
      some (.error s!"claims {len} payload bytes, file holds {bytes.length - (headerLen + 8)}") else do
    let sum ← slice bytes stop (stop + 8)
    let data ← slice bytes 0 stop
    if leNat sum ≠ (hash64 data).toNat then some (.error "checksum mismatch") else do
    let payload ← slice bytes headerLen stop
    some (.ok (some payload))

/-! ### The hash tells words apart -/

theorem prime_unit : prime * 0xf1de83e19937733d#64 = 1#64 := by decide

theorem round_state (w : BitVec 64) : Injective (fun h => round h w) := by
  intro h k same
  have same : round h w = round k w := same
  have mixed := rotateLeft_injective (show 27 < 64 by decide) (add_injective 0x165667b1 same)
  exact xor_injective' _ (mul_injective prime_unit mixed)

theorem round_word (h : BitVec 64) : Injective (round h) := by
  intro v w same
  have mixed := rotateLeft_injective (show 27 < 64 by decide) (add_injective 0x165667b1 same)
  have turned := xor_injective h (mul_injective prime_unit mixed)
  exact mul_injective prime_unit (rotateLeft_injective (show 31 < 64 by decide) turned)

theorem avalanche_injective : Injective avalanche := by
  intro x y same
  have third := xorShift_injective (show 0 < 32 by decide) same
  have second := mul_injective (show 0xc4ceb9fe1a85ec53#64 * 0x9cb4b2f8129337db#64 = 1#64 by decide) third
  have first := mul_injective (show 0xff51afd7ed558ccd#64 * 0x4f74430c22a54005#64 = 1#64 by decide)
    (xorShift_injective (show 0 < 29 by decide) second)
  exact xorShift_injective (show 0 < 33 by decide) first

theorem fromLeBytes_injective {a b : List UInt8} (long : a.length = b.length) (few : a.length ≤ 8)
    (same : fromLeBytes a = fromLeBytes b) : a = b := by
  have small : 256 ^ a.length ≤ 2 ^ 64 := (Nat.pow_le_pow_right (by decide) few).trans (by decide)
  have left := (leNat_lt a).trans_le small
  have right := (leNat_lt b).trans_le (long ▸ small)
  have numbers := congrArg BitVec.toNat same
  rw [fromLeBytes, fromLeBytes, BitVec.toNat_ofNat, BitVec.toNat_ofNat, Nat.mod_eq_of_lt left,
    Nat.mod_eq_of_lt right] at numbers
  exact leNat_injective long numbers

/-- The loop over the last bytes reads them as one word. -/
theorem tailOf_eq {bytes : List UInt8} (few : bytes.length ≤ 8) : tailOf bytes = fromLeBytes bytes := by
  have loop : ∀ (rest : List UInt8) (k v : ℕ), v < 2 ^ (8 * k) → k + rest.length ≤ 8 →
      (rest.zipIdx k).foldl (fun tail b => tail ||| BitVec.ofNat 64 b.1.toNat <<< (b.2 * 8)) (BitVec.ofNat 64 v) =
        BitVec.ofNat 64 (v + 2 ^ (8 * k) * leNat rest) := by
    intro rest
    induction rest with
    | nil => intro k v _ _; simp [leNat]
    | cons b rest ih =>
      intro k v small room
      have byte := b.toNat_lt
      have next : BitVec.ofNat 64 v ||| BitVec.ofNat 64 b.toNat <<< (k * 8) =
          BitVec.ofNat 64 (v + 2 ^ (8 * k) * b.toNat) := by
        have shifted : b.toNat <<< (k * 8) ||| v = v + 2 ^ (8 * k) * b.toNat := by
          rw [← Nat.shiftLeft_add_eq_or_of_lt (by rwa [Nat.mul_comm k]), Nat.shiftLeft_eq, Nat.mul_comm k, Nat.add_comm,
            Nat.mul_comm b.toNat]
        rw [← shifted, Nat.lor_comm, BitVec.ofNat_or]
        congr 1
        apply BitVec.eq_of_toNat_eq
        simp [BitVec.toNat_shiftLeft, Nat.shiftLeft_eq]
      have power : 2 ^ (8 * (k + 1)) = 2 ^ (8 * k) * 256 := by rw [Nat.mul_add, Nat.pow_add]
      have grown : v + 2 ^ (8 * k) * b.toNat < 2 ^ (8 * (k + 1)) := by
        calc v + 2 ^ (8 * k) * b.toNat < 2 ^ (8 * k) + 2 ^ (8 * k) * b.toNat := by omega
          _ = 2 ^ (8 * k) * (b.toNat + 1) := by ring
          _ ≤ 2 ^ (8 * k) * 256 := Nat.mul_le_mul_left _ (by omega)
          _ = 2 ^ (8 * (k + 1)) := power.symm
      rw [List.zipIdx_cons, List.foldl_cons, next, ih (k + 1) _ grown (by rw [List.length_cons] at room; omega), leNat,
        power]
      congr 1
      ring
  have whole := loop bytes 0 0 (by decide) (by omega)
  simpa [tailOf, fromLeBytes] using whole

theorem length_chunk {data : List UInt8} {i : ℕ} (inside : i < data.length / 8) : (chunk data i).length = 8 := by
  rw [chunk, List.length_take, List.length_drop]
  omega

theorem length_remainder (data : List UInt8) : (remainder data).length = data.length % 8 := by
  rw [remainder, List.length_drop]
  omega

theorem hash_differs {a b : List UInt8} (long : a.length = b.length) {i : ℕ}
    (outside : ∀ j, j / 8 ≠ i → a[j]? = b[j]?) (differ : a ≠ b) (seed : BitVec 64) :
    hash64Seeded a seed ≠ hash64Seeded b seed := by
  have chunks : ∀ j, j ≠ i → chunk a j = chunk b j := by
    intro j other
    apply List.ext_getElem?
    intro k
    by_cases first : k < 8
    · rw [chunk, chunk, List.getElem?_take_of_lt first, List.getElem?_take_of_lt first, List.getElem?_drop,
        List.getElem?_drop]
      exact outside _ (by omega)
    · rw [chunk, chunk, List.getElem?_take_eq_none (by omega), List.getElem?_take_eq_none (by omega)]
  have tails : i ≠ a.length / 8 → remainder a = remainder b := by
    intro other
    apply List.ext_getElem?
    intro k
    rw [remainder, remainder, ← long, List.getElem?_drop, List.getElem?_drop]
    by_cases inside : 8 * (a.length / 8) + k < a.length
    · exact outside _ (by omega)
    · rw [List.getElem?_eq_none (by omega), List.getElem?_eq_none (by omega)]
  have remainders : remainder a ≠ remainder b → tailOf (remainder a) * prime ≠ tailOf (remainder b) * prime := by
    intro apart same
    have short := length_remainder a
    have short' := length_remainder b
    have words := mul_injective prime_unit same
    rw [tailOf_eq (by omega), tailOf_eq (by omega)] at words
    exact apart (fromLeBytes_injective (by rw [short, short', long]) (by omega) words)
  intro same
  have mixed := avalanche_injective same
  rw [← long] at mixed
  by_cases full : i < a.length / 8
  · -- A full word differs: the states differ, and the tails agree.
    rw [tails (by omega)] at mixed
    refine foldl_differs round_state round_word full ?_ ?_ _ (xor_injective' _ mixed)
    · intro j _ other
      rw [chunks j other]
    · intro words
      have equal := fromLeBytes_injective (by rw [length_chunk full, length_chunk (long ▸ full)])
        (by rw [length_chunk full]) words
      refine differ (List.ext_getElem? fun j => ?_)
      by_cases here : j / 8 = i
      · have byte := congrArg (fun l => l[j % 8]?) equal
        simp only [chunk] at byte
        rw [List.getElem?_take_of_lt (by omega), List.getElem?_take_of_lt (by omega), List.getElem?_drop,
          List.getElem?_drop] at byte
        have place : 8 * i + j % 8 = j := by omega
        rwa [place] at byte
      · exact outside j here
  · have states : (List.range (a.length / 8)).foldl (fun h j => round h (fromLeBytes (chunk a j)))
        (seed ^^^ (BitVec.ofNat 64 a.length * prime)) =
        (List.range (a.length / 8)).foldl (fun h j => round h (fromLeBytes (chunk b j)))
        (seed ^^^ (BitVec.ofNat 64 a.length * prime)) := by
      refine List.foldl_ext _ _ _ fun h j member => ?_
      have below := List.mem_range.mp member
      rw [chunks j (by omega)]
    rw [states] at mixed
    refine remainders ?_ (xor_injective _ mixed)
    intro equal
    refine differ (List.ext_getElem? fun j => ?_)
    by_cases here : j / 8 = i
    · by_cases inside : j < a.length
      · have byte := congrArg (fun l => l[j % 8]?) equal
        simp only [remainder] at byte
        rw [← long, List.getElem?_drop, List.getElem?_drop] at byte
        have place : 8 * (a.length / 8) + j % 8 = j := by omega
        rwa [place] at byte
      · rw [List.getElem?_eq_none (by omega), List.getElem?_eq_none (by omega)]
    · exact outside j here

/-! ### Reading an entry -/

theorem slice_eq {bytes : List UInt8} {start stop : ℕ} (ordered : start ≤ stop) (inside : stop ≤ bytes.length) :
    slice bytes start stop = some ((bytes.take stop).drop start) := if_pos ⟨ordered, inside⟩

/-- A file names its format, the part and the key in its first bytes. -/
def Named (bytes : List UInt8) (part : Part) (key : Key) : Prop :=
  bytes.take 29 = magic ++ leBytes 4 formatVersion ++ [part.code] ++ key.bytes

def claimed (bytes : List UInt8) : ℕ := leNat ((bytes.take 37).drop 29)

/-- The claimed length fits behind the header, and not with the checksum behind it. -/
def ClaimsTooMuch (bytes : List UInt8) : Prop :=
  headerLen + claimed bytes < 2 ^ 64 ∧ 2 ^ 64 ≤ headerLen + claimed bytes + 8

instance (bytes : List UInt8) : Decidable (ClaimsTooMuch bytes) := inferInstanceAs (Decidable (_ ∧ _))

theorem claimed_lt (bytes : List UInt8) : claimed bytes < 2 ^ 64 := by
  refine (leNat_lt _).trans_le ?_
  calc 256 ^ ((bytes.take 37).drop 29).length ≤ 256 ^ 8 := by
        refine Nat.pow_le_pow_right (by decide) ?_
        rw [List.length_drop, List.length_take]
        omega
    _ = 2 ^ 64 := by decide

theorem leNat_word {v : ℕ} (small : v < 2 ^ 64) : leNat (leBytes 8 v) = v := by
  rw [leNat_leBytes]
  exact Nat.mod_eq_of_lt small

/-- A header that reads as the wanted one consists of its bytes. -/
theorem named_iff {bytes : List UInt8} (long : headerLen + 8 ≤ bytes.length) (part : Part) (key : Key) :
    Named bytes part key ↔ (bytes.take 8).drop 0 = magic ∧ leNat ((bytes.take 12).drop 8) = formatVersion ∧
      bytes[12]? = some part.code ∧ (bytes.take 29).drop 13 = key.bytes := by
  have long : 45 ≤ bytes.length := long
  have parts : bytes.take 29 = (bytes.take 8).drop 0 ++ (bytes.take 12).drop 8 ++ (bytes.take 13).drop 12 ++
      (bytes.take 29).drop 13 := by
    rw [List.drop_zero]
    have joined : ∀ m n, m ≤ n → bytes.take m ++ (bytes.take n).drop m = bytes.take n := by
      intro m n below
      conv_rhs => rw [← List.take_append_drop m (bytes.take n)]
      rw [List.take_take, Nat.min_eq_left below]
    rw [joined 8 12 (by decide), joined 12 13 (by decide), joined 13 29 (by decide)]
  have length : ∀ m n, m ≤ n → n ≤ 45 → ((bytes.take n).drop m).length = n - m := by
    intro m n below inside
    rw [List.length_drop, List.length_take, Nat.min_eq_left (by omega)]
  have first := length 0 8 (by decide) (by decide)
  have second := length 8 12 (by decide) (by decide)
  have third := length 12 13 (by decide) (by decide)
  have version : (bytes.take 12).drop 8 = leBytes 4 formatVersion ↔ leNat ((bytes.take 12).drop 8) = formatVersion := by
    constructor
    · intro equal
      rw [equal, leNat_leBytes]
      decide
    · intro equal
      have back := leBytes_leNat ((bytes.take 12).drop 8)
      rw [second, equal] at back
      exact back.symm
  have code : (bytes.take 13).drop 12 = [part.code] ↔ bytes[12]? = some part.code := by
    have single : (bytes.take 13).drop 12 = [bytes[12]] := by
      apply List.ext_getElem?
      intro i
      rw [List.getElem?_drop]
      by_cases here : i = 0
      · subst here
        rw [List.getElem?_take_of_lt (by decide), List.getElem?_eq_getElem (by omega)]
        rfl
      · rw [List.getElem?_take_eq_none (by omega), List.getElem?_eq_none (by rw [List.length_singleton]; omega)]
    rw [single, List.getElem?_eq_getElem (by omega)]
    simp
  unfold Named
  conv_lhs => rw [parts]
  constructor
  · intro equal
    obtain ⟨equal, id⟩ := List.append_inj equal (by
      rw [List.length_append, List.length_append, first, second, third]
      simp [magic])
    obtain ⟨equal, byte⟩ := List.append_inj equal (by
      rw [List.length_append, first, second]
      simp [magic])
    obtain ⟨start, number⟩ := List.append_inj equal (by rw [first]; rfl)
    exact ⟨start, version.mp number, code.mp byte, id⟩
  · rintro ⟨start, number, byte, id⟩
    rw [start, version.mpr number, code.mpr byte, id]

theorem decodeEntry_named {bytes : List UInt8} (long : headerLen + 8 ≤ bytes.length) {part : Part} {key : Key}
    (named : Named bytes part key) :
    decodeEntry bytes part key =
      (match addUsize headerLen (claimed bytes) with
      | none => some (.error "payload length overflows")
      | some stop => do
        let file ← addUsize stop 8
        if bytes.length ≠ file then
          some (.error s!"claims {claimed bytes} payload bytes, file holds {bytes.length - (headerLen + 8)}") else do
        let sum ← slice bytes stop (stop + 8)
        let data ← slice bytes 0 stop
        if leNat sum ≠ (hash64 data).toNat then some (.error "checksum mismatch") else do
        let payload ← slice bytes headerLen stop
        some (.ok (some payload))) := by
  obtain ⟨start, number, byte, id⟩ := (named_iff long part key).mp named
  have enough : 45 ≤ bytes.length := long
  rw [decodeEntry, if_neg (by omega), slice_eq (by decide) (by omega), start, slice_eq (by decide) (by omega), byte,
    slice_eq (by decide) (by omega), id, slice_eq (by decide) (by omega)]
  simp only [Option.bind_eq_bind, Option.bind_some, ne_eq, not_true_eq_false, if_false, number]
  rfl

theorem decodeEntry_other {bytes : List UInt8} {part : Part} {key : Key}
    (other : bytes.length < headerLen + 8 ∨ ¬Named bytes part key) :
    (∃ why, decodeEntry bytes part key = some (.error why)) ∨ decodeEntry bytes part key = some (.ok none) := by
  by_cases short : bytes.length < headerLen + 8
  · exact .inl ⟨_, by rw [decodeEntry, if_pos short]⟩
  · have enough : 45 ≤ bytes.length := Nat.not_lt.mp short
    have unnamed := other.resolve_left short
    rw [named_iff (Nat.not_lt.mp short)] at unnamed
    obtain ⟨code, byte⟩ : ∃ code, bytes[12]? = some code := ⟨_, List.getElem?_eq_getElem (by omega)⟩
    rw [decodeEntry, if_neg short, slice_eq (by decide) (by omega), slice_eq (by decide) (by omega), byte,
      slice_eq (by decide) (by omega)]
    simp only [Option.bind_eq_bind, Option.bind_some]
    by_cases start : (bytes.take 8).drop 0 = magic
    · rw [if_neg (not_not.mpr start)]
      by_cases number : leNat ((bytes.take 12).drop 8) = formatVersion
      · rw [if_neg (not_not.mpr number)]
        by_cases named : code = part.code
        · rw [if_neg (not_not.mpr named)]
          have id : (bytes.take 29).drop 13 ≠ key.bytes := fun id =>
            unnamed ⟨start, number, by rw [byte, named], id⟩
          exact .inr (if_pos id)
        · exact .inr (if_pos named)
      · exact .inr (if_pos number)
    · exact .inl ⟨_, if_pos start⟩

/-- The bytes in front of the payload. -/
def header (part : Part) (key : Key) (len : ℕ) : List UInt8 :=
  magic ++ leBytes 4 formatVersion ++ [part.code] ++ key.bytes ++ leBytes 8 len

theorem length_header (part : Part) (key : Key) (len : ℕ) : (header part key len).length = headerLen := by
  simp [header, magic, headerLen, key.sixteen]

theorem body_eq (part : Part) (key : Key) (payload : List UInt8) :
    body part key payload = header part key payload.length ++ payload := rfl

theorem length_body (part : Part) (key : Key) (payload : List UInt8) :
    (body part key payload).length = headerLen + payload.length := by
  rw [body_eq, List.length_append, length_header]

theorem length_entry (part : Part) (key : Key) (payload : List UInt8) :
    (entry part key payload).length = headerLen + payload.length + 8 := by
  rw [entry, List.length_append, length_body, length_leBytes]

theorem take_header_iff {bytes : List UInt8} (long : headerLen + 8 ≤ bytes.length) {part : Part} {key : Key}
    {len : ℕ} (small : len < 2 ^ 64) :
    bytes.take headerLen = header part key len ↔ Named bytes part key ∧ claimed bytes = len := by
  have enough : 45 ≤ bytes.length := long
  have parts : bytes.take headerLen = bytes.take 29 ++ (bytes.take 37).drop 29 := by
    conv_lhs => rw [← List.take_append_drop 29 (bytes.take headerLen)]
    rw [List.take_take]
    rfl
  have eight : ((bytes.take 37).drop 29).length = 8 := by
    rw [List.length_drop, List.length_take, Nat.min_eq_left (by omega)]
  rw [parts, header]
  constructor
  · intro equal
    obtain ⟨named, len_⟩ := List.append_inj equal (by
      rw [List.length_take, Nat.min_eq_left (by omega)]
      simp [magic, key.sixteen])
    refine ⟨named, ?_⟩
    rw [claimed, len_, leNat_word small]
  · rintro ⟨named, equal⟩
    have back := leBytes_leNat ((bytes.take 37).drop 29)
    rw [eight] at back
    rw [named, ← back, show leNat ((bytes.take 37).drop 29) = len from equal]

/-- A file is read as a hit exactly when it is the entry that was written for the part,
    the key and the payload, and its length is one a file can have. -/
theorem decodeEntry_hit_iff {bytes : List UInt8} {part : Part} {key : Key} {payload : List UInt8} :
    decodeEntry bytes part key = some (.ok (some payload)) ↔
      bytes = entry part key payload ∧ headerLen + payload.length + 8 < 2 ^ 64 := by
  constructor
  · intro hit
    by_cases other : bytes.length < headerLen + 8 ∨ ¬Named bytes part key
    · rcases decodeEntry_other other with ⟨why, failed⟩ | missed
      · rw [failed] at hit
        cases hit
      · rw [missed] at hit
        cases hit
    · obtain ⟨long, named⟩ := not_or.mp other
      have long := Nat.not_lt.mp long
      have named := not_not.mp named
      rw [decodeEntry_named long named] at hit
      by_cases fits : headerLen + claimed bytes < 2 ^ 64
      · rw [addUsize, if_pos fits] at hit
        simp only [Option.bind_eq_bind] at hit
        by_cases room : headerLen + claimed bytes + 8 < 2 ^ 64
        · rw [addUsize, if_pos room, Option.bind_some] at hit
          by_cases whole : bytes.length = headerLen + claimed bytes + 8
          · rw [if_neg (not_not.mpr whole), slice_eq (by omega) (by omega), Option.bind_some,
              slice_eq (by omega) (by omega), Option.bind_some, List.drop_zero] at hit
            split at hit
            · cases hit
            next sum =>
              have sum := not_not.mp sum
              rw [slice_eq (by omega) (by omega), Option.bind_some] at hit
              obtain rfl : (bytes.take (headerLen + claimed bytes)).drop headerLen = payload := by
                simpa using hit
              have long_payload :
                  ((bytes.take (headerLen + claimed bytes)).drop headerLen).length = claimed bytes := by
                rw [List.length_drop, List.length_take, Nat.min_eq_left (by omega)]
                omega
              have front : body part key ((bytes.take (headerLen + claimed bytes)).drop headerLen) =
                  bytes.take (headerLen + claimed bytes) := by
                rw [body_eq, long_payload, ← (take_header_iff long (claimed_lt bytes)).mpr ⟨named, rfl⟩]
                conv_rhs => rw [← List.take_append_drop headerLen (bytes.take (headerLen + claimed bytes))]
                rw [List.take_take, Nat.min_eq_left (by omega)]
              have back : leBytes 8 (hash64 (bytes.take (headerLen + claimed bytes))).toNat =
                  bytes.drop (headerLen + claimed bytes) := by
                have last : (bytes.drop (headerLen + claimed bytes)).length = 8 := by
                  rw [List.length_drop]
                  omega
                have read := leBytes_leNat (bytes.drop (headerLen + claimed bytes))
                rw [List.take_of_length_le (by omega)] at sum
                rwa [last, sum] at read
              refine ⟨?_, by rw [long_payload]; exact room⟩
              rw [entry, front, back, List.take_append_drop]
          · rw [if_pos whole] at hit
            cases hit
        · rw [addUsize, if_neg room] at hit
          cases hit
      · rw [addUsize, if_neg fits] at hit
        cases hit
  · rintro ⟨rfl, room⟩
    have length := length_entry part key payload
    have long : headerLen + 8 ≤ (entry part key payload).length := by omega
    have front : (entry part key payload).take headerLen = header part key payload.length := by
      rw [entry, body_eq, List.append_assoc]
      exact List.take_left' (length_header part key payload.length)
    obtain ⟨named, claims⟩ := (take_header_iff long (by omega)).mp front
    have data : (entry part key payload).take (headerLen + payload.length) = body part key payload := by
      rw [entry]
      exact List.take_left' (length_body part key payload)
    have sum : ((entry part key payload).take (headerLen + payload.length + 8)).drop (headerLen + payload.length) =
        leBytes 8 (hash64 (body part key payload)).toNat := by
      rw [List.take_of_length_le (by omega), entry]
      exact List.drop_left' (length_body part key payload)
    have read : leNat (leBytes 8 (hash64 (body part key payload)).toNat) =
        (hash64 (body part key payload)).toNat := leNat_word (hash64 (body part key payload)).isLt
    rw [decodeEntry_named long named, claims, addUsize, if_pos (by omega)]
    simp only [Option.bind_eq_bind]
    rw [addUsize, if_pos room, Option.bind_some, if_neg (not_not.mpr length), slice_eq (by omega) (by omega),
      Option.bind_some, slice_eq (by omega) (by omega), Option.bind_some, List.drop_zero, data, sum,
      if_neg (not_not.mpr read), slice_eq (by omega) (by omega), Option.bind_some, data, body_eq,
      List.drop_left' (length_header part key payload.length)]

/-- An addition overflows exactly on a file that names the wanted entry and claims a
    length that fits behind the header and not with the checksum behind it. -/
theorem decodeEntry_none_iff {bytes : List UInt8} {part : Part} {key : Key} :
    decodeEntry bytes part key = none ↔
      headerLen + 8 ≤ bytes.length ∧ Named bytes part key ∧ ClaimsTooMuch bytes := by
  by_cases other : bytes.length < headerLen + 8 ∨ ¬Named bytes part key
  · constructor
    · intro stopped
      rcases decodeEntry_other other with ⟨why, failed⟩ | missed
      · rw [failed] at stopped
        cases stopped
      · rw [missed] at stopped
        cases stopped
    · rintro ⟨long, named, -⟩
      exact absurd named (other.resolve_left (Nat.not_lt.mpr long))
  · obtain ⟨long, named⟩ := not_or.mp other
    have long := Nat.not_lt.mp long
    have named := not_not.mp named
    rw [decodeEntry_named long named]
    by_cases fits : headerLen + claimed bytes < 2 ^ 64
    · rw [addUsize, if_pos fits]
      simp only [Option.bind_eq_bind]
      by_cases room : headerLen + claimed bytes + 8 < 2 ^ 64
      · have fine : ¬ClaimsTooMuch bytes := fun much => by
          have above := much.2
          omega
        refine iff_of_false ?_ fun all => fine all.2.2
        rw [addUsize, if_pos room, Option.bind_some]
        by_cases whole : bytes.length = headerLen + claimed bytes + 8
        · rw [if_neg (not_not.mpr whole), slice_eq (by omega) (by omega), Option.bind_some,
            slice_eq (by omega) (by omega), Option.bind_some]
          split
          · exact Option.some_ne_none _
          · rw [slice_eq (by omega) (by omega), Option.bind_some]
            exact Option.some_ne_none _
        · rw [if_pos whole]
          exact Option.some_ne_none _
      · rw [addUsize, if_neg room]
        exact iff_of_true rfl ⟨long, named, fits, Nat.not_lt.mp room⟩
    · rw [addUsize, if_neg fits]
      exact iff_of_false (Option.some_ne_none _) fun all => fits all.2.2.1

/-! ### Damage -/

/-- One aligned word of what the checksum covers changed, or the file was cut or
    lengthened. -/
def Damaged (file bytes : List UInt8) : Prop :=
  bytes ≠ file ∧
    ((bytes.length = file.length ∧ ∃ i, ∀ j, (j / 8 ≠ i ∨ file.length - 8 ≤ j) → bytes[j]? = file[j]?) ∨
      bytes <+: file ∨ file <+: bytes)

/-- Two entries of which one begins the other have payloads of one length. -/
theorem entry_cut {part part' : Part} {key key' : Key} {payload payload' : List UInt8}
    (fits : payload.length < 2 ^ 64) (fits' : payload'.length < 2 ^ 64)
    (front : entry part key payload <+: entry part' key' payload') :
    entry part key payload = entry part' key' payload' := by
  obtain ⟨more, joined⟩ := front
  have heads : header part key payload.length = header part' key' payload'.length := by
    have starts := congrArg (List.take headerLen) joined
    rw [entry, entry, body_eq, body_eq, List.append_assoc, List.append_assoc, List.append_assoc,
      List.take_left' (length_header _ _ _), List.take_left' (length_header _ _ _)] at starts
    exact starts
  have lengths : payload.length = payload'.length := by
    have lens := (List.append_inj' heads (by rw [length_leBytes, length_leBytes])).2
    have numbers := congrArg leNat lens
    rwa [leNat_word fits, leNat_word fits'] at numbers
  have long := congrArg List.length joined
  rw [List.length_append, length_entry, length_entry, lengths] at long
  obtain rfl := List.eq_nil_of_length_eq_zero (show more.length = 0 by omega)
  rwa [List.append_nil] at joined

theorem entry_damaged {part part' : Part} {key key' : Key} {payload payload' : List UInt8}
    (fits : payload.length < 2 ^ 64) (fits' : payload'.length < 2 ^ 64) :
    ¬Damaged (entry part key payload) (entry part' key' payload') := by
  rintro ⟨differ, ⟨long, i, outside⟩ | cut | more⟩
  · rw [length_entry, length_entry] at long
    have long : (body part' key' payload').length = (body part key payload).length := by
      rw [length_body, length_body]
      omega
    have place := length_body part key payload
    -- The checksums stand outside of the word, so the hashes are equal.
    have sums : leBytes 8 (hash64 (body part' key' payload')).toNat = leBytes 8 (hash64 (body part key payload)).toNat := by
      apply List.ext_getElem?
      intro k
      have byte := outside ((body part key payload).length + k) (.inr (by rw [length_entry]; omega))
      rw [entry, entry, ← long, List.getElem?_append_right (by omega), long, List.getElem?_append_right (by omega)]
        at byte
      simpa using byte
    have hashes : hash64 (body part' key' payload') = hash64 (body part key payload) := by
      have numbers := congrArg leNat sums
      rw [leNat_word (hash64 _).isLt, leNat_word (hash64 _).isLt] at numbers
      exact BitVec.eq_of_toNat_eq numbers
    refine hash_differs long (i := i) ?_ ?_ _ hashes
    · intro j away
      by_cases inside : j < (body part key payload).length
      · have byte := outside j (.inl away)
        rwa [entry, entry, List.getElem?_append_left (by omega), List.getElem?_append_left (by omega)] at byte
      · rw [List.getElem?_eq_none (by omega), List.getElem?_eq_none (by omega)]
    · intro bodies
      exact differ (by rw [entry, entry, bodies])
  · exact differ (entry_cut fits' fits cut)
  · exact differ (entry_cut fits fits' more).symm

/-- The reader ends without an overflow, what it returns is the payload of an entry
    that was written for the part and the key, and the bytes are no hit when they come
    from an entry by damage. -/
def Meets (bytes : List UInt8) (part : Part) (key : Key) : Prop :=
  decodeEntry bytes part key ≠ none ∧
  (∀ payload, decodeEntry bytes part key = some (.ok (some payload)) → bytes = entry part key payload) ∧
  ∀ file part' key' written, decodeEntry file part' key' = some (.ok (some written)) → Damaged file bytes →
    ∀ payload, decodeEntry bytes part key ≠ some (.ok (some payload))

/-- The reader of entries does all that is asked of it, except that the sum of the
    claimed length, the header and the checksum may overflow. -/
theorem entry_iff (bytes : List UInt8) (part : Part) (key : Key) :
    Meets bytes part key ↔ ¬(headerLen + 8 ≤ bytes.length ∧ Named bytes part key ∧ ClaimsTooMuch bytes) := by
  constructor
  · rintro ⟨ends, -⟩ much
    exact ends (decodeEntry_none_iff.mpr much)
  · intro fine
    refine ⟨fun stopped => fine (decodeEntry_none_iff.mp stopped), fun payload hit => (decodeEntry_hit_iff.mp hit).1, ?_⟩
    intro file part' key' written valid damaged payload hit
    obtain ⟨rfl, room⟩ := decodeEntry_hit_iff.mp hit
    obtain ⟨rfl, room'⟩ := decodeEntry_hit_iff.mp valid
    exact entry_damaged (by omega) (by omega) damaged

/-- A header whose claimed length leaves no room for the checksum. -/
def overlong : List UInt8 :=
  header .functions ⟨List.replicate 16 0, rfl⟩ (2 ^ 64 - 45) ++ List.replicate 8 0

theorem overlong_overflows : ¬∀ bytes part key, Meets bytes part key := by
  intro meets
  exact (meets overlong .functions ⟨List.replicate 16 0, rfl⟩).1 (by decide)

end E5r.CacheEntry
