import E5r.PtxExport
import E5r.PtxMachine
import E5r.FpConvert
import E5r.PtxParser

/-!
The interpreter's values and memory are the model's: arithmetic at either width,
comparisons, conversions, float results, and little-endian access to bytes.
-/
namespace E5r.PtxValues
open PtxSyntax PtxMachine

def dim (v : Dim3) : PtxModel.Dim3 := ⟨v.x, v.y, v.z⟩
def state (s : TState) : PtxModel.TState := ⟨s.pc, s.reg, s.pred⟩
def memory (m : Mem) : PtxModel.Mem := m.get
def region (r : Region) : PtxModel.Region := ⟨r.base, r.size.toNat⟩

def space : Sp → PtxModel.Sp
  | .global => .global
  | .shared => .shared

def kind : Kind → PtxModel.AccKind
  | .read => .read
  | .write => .write
  | .atomic => .atomic

/-- A launch whose NaN oracle is zero. -/
def context (c : Ctx) : PtxModel.Ctx :=
  ⟨dim c.tid, dim c.ntid, dim c.ctaid, dim c.nctaid, fun n => (c.params n).getD 0, fun n => (c.sym n).getD 0,
    fun _ => 0⟩

def allocs (al : Allocs) : PtxModel.Sp → List PtxModel.Region
  | .global => al.global.map region
  | .shared => al.shared.map region

def heap (g sh : Mem) : PtxModel.Heap := ⟨memory g, memory sh⟩

variable (t : Ty)

theorem width_eq : width t = match PtxModel.width t with
    | .w32 => 32
    | .w64 => 64 := by cases t <;> rfl

theorem bytes_eq : width t / 8 = (PtxModel.size t).bytes := by cases t <;> rfl

theorem signed_eq : isSigned t = PtxModel.signed t := by cases t <;> rfl

variable (v : BitVec 64)

theorem lo32_eq : lo32 v = PtxModel.ext32 (PtxModel.lo32 v) := by
  apply BitVec.eq_of_toNat_eq
  simp only [lo32, PtxModel.ext32, PtxModel.lo32, BitVec.toNat_and, BitVec.toNat_setWidth]
  rw [show (0xffffffff#64).toNat = 2 ^ 32 - 1 from rfl, Nat.and_two_pow_sub_one_eq_mod]
  have := v.isLt
  omega

theorem toNat_lo32 : (lo32 v).toNat = v.toNat % 2 ^ 32 := by
  rw [lo32_eq]
  simp only [PtxModel.ext32, PtxModel.lo32, BitVec.toNat_setWidth]
  have := v.isLt
  omega

theorem fit_eq : fit t v = PtxModel.fit t v := by
  rw [fit, PtxModel.fit, width_eq, lo32_eq]
  cases PtxModel.width t <;> rfl

theorem sext32_eq : sext32 v = (PtxModel.lo32 v).signExtend 64 := rfl

theorem atWidth_eq {f : BitVec 64 → BitVec 64 → BitVec 64} (op : (n : ℕ) → BitVec n → BitVec n → BitVec n)
    (narrow : ∀ x y, lo32 (f (lo32 x) (lo32 y)) = PtxModel.ext32 (op 32 (PtxModel.lo32 x) (PtxModel.lo32 y)))
    (wide : ∀ x y, f x y = op 64 x y) (a b : BitVec 64) :
    atWidth (width t) f a b = PtxModel.atWidth (PtxModel.width t) op a b := by
  unfold atWidth PtxModel.atWidth
  rw [width_eq]
  cases PtxModel.width t with
  | w32 => exact narrow a b
  | w64 => exact wide a b

/-- The low half of a result that only depends on the low halves. -/
theorem lo32_of_toNat {x : BitVec 64} {y : BitVec 32} (same : x.toNat % 2 ^ 32 = y.toNat) :
    lo32 x = PtxModel.ext32 y := by
  apply BitVec.eq_of_toNat_eq
  rw [toNat_lo32, same, PtxModel.ext32, BitVec.toNat_setWidth, Nat.mod_eq_of_lt]
  exact lt_trans y.isLt (by norm_num)

variable (x y : BitVec 64)

theorem add_narrow : lo32 (lo32 x + lo32 y) = PtxModel.ext32 (PtxModel.lo32 x + PtxModel.lo32 y) := by
  apply lo32_of_toNat
  simp only [BitVec.toNat_add, toNat_lo32, PtxModel.lo32, BitVec.toNat_setWidth]
  omega

theorem sub_narrow : lo32 (lo32 x - lo32 y) = PtxModel.ext32 (PtxModel.lo32 x - PtxModel.lo32 y) := by
  apply lo32_of_toNat
  simp only [BitVec.toNat_sub, toNat_lo32, PtxModel.lo32, BitVec.toNat_setWidth]
  omega

theorem mul_narrow : lo32 (lo32 x * lo32 y) = PtxModel.ext32 (PtxModel.lo32 x * PtxModel.lo32 y) := by
  apply lo32_of_toNat
  simp only [BitVec.toNat_mul, toNat_lo32, PtxModel.lo32, BitVec.toNat_setWidth]
  rw [Nat.mod_mod_of_dvd _ (by norm_num)]

theorem and_narrow : lo32 (lo32 x &&& lo32 y) = PtxModel.ext32 (PtxModel.lo32 x &&& PtxModel.lo32 y) := by
  rw [lo32_eq, lo32_eq, lo32_eq]
  ext i inside
  simp [PtxModel.ext32, PtxModel.lo32]

theorem or_narrow : lo32 (lo32 x ||| lo32 y) = PtxModel.ext32 (PtxModel.lo32 x ||| PtxModel.lo32 y) := by
  rw [lo32_eq, lo32_eq, lo32_eq]
  ext i inside
  simp [PtxModel.ext32, PtxModel.lo32]

theorem xor_narrow : lo32 (lo32 x ^^^ lo32 y) = PtxModel.ext32 (PtxModel.lo32 x ^^^ PtxModel.lo32 y) := by
  rw [lo32_eq, lo32_eq, lo32_eq]
  ext i inside
  simp [PtxModel.ext32, PtxModel.lo32]

theorem setWidth_lo32 : (lo32 v).setWidth 32 = PtxModel.lo32 v := by
  rw [lo32_eq]
  exact PtxModel.lo32_ext32 _

theorem signedAt_narrow : signedAt 32 (lo32 v) = (PtxModel.lo32 v).toInt := by
  rw [signedAt, if_pos rfl, setWidth_lo32]

theorem lo32_inj : lo32 x = lo32 y ↔ PtxModel.lo32 x = PtxModel.lo32 y := by
  constructor
  · intro same
    rw [← setWidth_lo32 x, ← setWidth_lo32 y, same]
  · intro same
    rw [lo32_eq, lo32_eq, same]

theorem toNat_lo32_model : (lo32 v).toNat = (PtxModel.lo32 v).toNat := by
  rw [toNat_lo32]
  simp [PtxModel.lo32]

/-- A comparison on patterns with the model's order, signed and unsigned. -/
theorem cmpCut_eq (c : CmpOp) {t : Ty} (integer : t.isFloat = false) {n : ℕ} {x y : BitVec 64} {x' y' : BitVec n}
    (same : x = y ↔ x' = y') (sx : signedAt (width t) x = x'.toInt) (sy : signedAt (width t) y = y'.toInt)
    (ux : x.toNat = x'.toNat) (uy : y.toNat = y'.toNat) : cmpCut c t x y = PtxModel.cmpAt c t x' y' := by
  unfold cmpCut
  simp only [sx, sy, BitVec.lt_def, BitVec.le_def, ux, uy, gt_iff_lt, ge_iff_le]
  cases t <;> cases c <;>
    first
      | contradiction
      | rfl
      | simp [PtxModel.cmpAt, bne, Bool.beq_eq_decide_eq, same]

theorem cmp_eq (c : CmpOp) {t : Ty} (integer : t.isFloat = false) (a b : BitVec 64) :
    PtxMachine.cmp c t a b = PtxModel.cmpVal c t a b := by
  unfold PtxMachine.cmp PtxModel.cmpVal
  have width' := width_eq t
  cases narrow : PtxModel.width t with
  | w32 =>
    rw [narrow] at width'
    have cut (v : BitVec 64) : fit t v = lo32 v := by rw [fit, if_pos width']
    rw [cut, cut]
    apply cmpCut_eq c integer (lo32_inj a b)
    · rw [width', signedAt_narrow]
    · rw [width', signedAt_narrow]
    · exact toNat_lo32_model a
    · exact toNat_lo32_model b
  | w64 =>
    rw [narrow] at width'
    have whole (v : BitVec 64) : fit t v = v := by rw [fit, width', if_neg (by decide)]
    rw [whole, whole]
    apply cmpCut_eq c integer Iff.rfl _ _ rfl rfl
    · rw [width', signedAt, if_neg (by decide)]
    · rw [width', signedAt, if_neg (by decide)]

theorem convert_eq (dt st : Ty) (a : BitVec 64) : convert dt st a = PtxModel.convert dt st a := by
  unfold convert PtxModel.convert
  rw [width_eq, width_eq, signed_eq, lo32_eq, sext32_eq]
  cases PtxModel.width st <;> cases PtxModel.width dt <;> rfl

variable (a : BitVec 64)

theorem shift_left_eq (b : BitVec 64) :
    shift (width t) a b .left = PtxModel.shiftBy (PtxModel.width t) (fun _ x n => x <<< n) a b := by
  unfold shift PtxModel.shiftBy
  rw [width_eq]
  cases PtxModel.width t with
  | w32 =>
    simp only [if_true, setWidth_lo32, toNat_lo32_model]
    split
    · next big =>
      have : min (PtxModel.lo32 b).toNat 32 = 32 := by omega
      rw [this, BitVec.shiftLeft_eq_zero (le_refl 32), lo32_eq]
      rfl
    · rw [lo32_eq]
      simp [PtxModel.ext32, PtxModel.lo32]
  | w64 =>
    simp only [toNat_lo32_model]
    rw [if_neg (by decide)]
    split
    · next big =>
      have : min (PtxModel.lo32 b).toNat 64 = 64 := by omega
      rw [this, BitVec.shiftLeft_eq_zero (le_refl 64)]
      rfl
    · rfl

theorem lo32_ext32 (v : BitVec 32) : lo32 (PtxModel.ext32 v) = PtxModel.ext32 v := by
  rw [lo32_eq, PtxModel.lo32_ext32]

theorem shift_right_eq (b : BitVec 64) :
    shift (width t) a b .right = PtxModel.shiftBy (PtxModel.width t) (fun _ x n => x >>> n) a b := by
  unfold shift PtxModel.shiftBy
  rw [width_eq]
  cases PtxModel.width t with
  | w32 =>
    simp only [if_true, setWidth_lo32, toNat_lo32_model]
    split
    · next big =>
      have : min (PtxModel.lo32 b).toNat 32 = 32 := by omega
      rw [this, BitVec.ushiftRight_eq_zero (le_refl 32), lo32_eq]
      rfl
    · exact lo32_ext32 _
  | w64 =>
    simp only [toNat_lo32_model]
    rw [if_neg (by decide)]
    split
    · next big =>
      have : min (PtxModel.lo32 b).toNat 64 = 64 := by omega
      rw [this, BitVec.ushiftRight_eq_zero (le_refl 64)]
      rfl
    · rfl

/-- An arithmetic shift by the whole width leaves the sign, as one by a bit less
    does. -/
theorem sshiftRight_clamped {n : ℕ} (x : BitVec (n + 1)) (k : ℕ) :
    x.sshiftRight (min (min k (n + 1)) n) = x.sshiftRight (min k (n + 1)) := by
  by_cases small : k ≤ n
  · rw [Nat.min_eq_left (by omega : k ≤ n + 1), Nat.min_eq_left small]
  · rw [Nat.min_eq_right (by omega : n + 1 ≤ k), Nat.min_eq_right (by omega : n ≤ n + 1)]
    ext i inside
    rw [BitVec.getElem_sshiftRight, BitVec.getElem_sshiftRight, dif_neg (by omega : ¬n + 1 + i < n + 1)]
    split
    · next first =>
      have : i = 0 := by omega
      subst this
      simp [BitVec.msb_eq_getLsbD_last]
    · rfl

theorem shift_arithmetic_eq (b : BitVec 64) :
    shift (width t) a b .arithmetic =
      PtxModel.shiftBy (PtxModel.width t) (fun _ x n => x.sshiftRight n) a b := by
  unfold shift PtxModel.shiftBy
  rw [width_eq]
  cases PtxModel.width t with
  | w32 =>
    simp only [if_true, setWidth_lo32, toNat_lo32_model, sshiftRight_clamped]
    exact lo32_ext32 _
  | w64 =>
    simp only [toNat_lo32_model]
    rw [if_neg (by decide)]
    exact sshiftRight_clamped a _

/-- The order of a type on the halves of registers is the model's. -/
theorem le_narrow :
    (if isSigned t then decide (signedAt 32 (lo32 x) ≤ signedAt 32 (lo32 y)) else decide (lo32 x ≤ lo32 y)) =
      if PtxModel.signed t then (PtxModel.lo32 x).sle (PtxModel.lo32 y)
      else (PtxModel.lo32 x).ule (PtxModel.lo32 y) := by
  simp only [signed_eq, signedAt_narrow, BitVec.le_def, toNat_lo32_model]
  rfl

theorem le_wide :
    (if isSigned t then decide (signedAt 64 x ≤ signedAt 64 y) else decide (x ≤ y)) =
      if PtxModel.signed t then x.sle y else x.ule y := by
  rw [signed_eq]
  rfl

/-- A choice between two halves. -/
theorem choose_narrow (p : Bool) (x y : BitVec 64) :
    lo32 (if p then lo32 x else lo32 y) = PtxModel.ext32 (if p then PtxModel.lo32 x else PtxModel.lo32 y) := by
  rw [lo32_eq x, lo32_eq y]
  cases p with
  | true => exact lo32_ext32 _
  | false => exact lo32_ext32 _

theorem atomVal_eq (op : AtomOp) (t : Ty) (old b : BitVec 64) : atomVal op t old b = PtxModel.atomVal op t old b := by
  cases op with
  | add => exact atWidth_eq t (fun _ x y => x + y) add_narrow (fun _ _ => rfl) old b
  | and => exact atWidth_eq t (fun _ x y => x &&& y) and_narrow (fun _ _ => rfl) old b
  | or => exact atWidth_eq t (fun _ x y => x ||| y) or_narrow (fun _ _ => rfl) old b
  | xor => exact atWidth_eq t (fun _ x y => x ^^^ y) xor_narrow (fun _ _ => rfl) old b
  | exch => exact fit_eq t b
  | min =>
    unfold atomVal PtxModel.atomVal PtxMachine.atWidth PtxModel.atWidth
    rw [width_eq]
    cases PtxModel.width t with
    | w32 =>
      simp only [if_true, le_narrow]
      exact choose_narrow _ old b
    | w64 =>
      simp only [le_wide]
      rfl
  | max =>
    unfold atomVal PtxModel.atomVal PtxMachine.atWidth PtxModel.atWidth
    rw [width_eq]
    cases PtxModel.width t with
    | w32 =>
      simp only [if_true, le_narrow]
      exact choose_narrow _ old b
    | w64 =>
      simp only [le_wide]
      rfl

/-- The number that `n` bytes from an address on stand for. -/
def littleEndian (m : Mem) (a : BitVec 64) : ℕ → ℕ
  | 0 => 0
  | n + 1 => (m.get (a + BitVec.ofNat 64 n)).toNat * 2 ^ (8 * n) + littleEndian m a n

theorem littleEndian_lt (m : Mem) (a : BitVec 64) (n : ℕ) : littleEndian m a n < 2 ^ (8 * n) := by
  induction n with
  | zero => exact one_pos
  | succ n ih =>
    have byte := (m.get (a + BitVec.ofNat 64 n)).isLt
    have top := Nat.mul_le_mul_right (2 ^ (8 * n)) (Nat.le_pred_of_lt byte)
    rw [littleEndian, show 8 * (n + 1) = 8 * n + 8 by ring, pow_add]
    simp only [Nat.pred_eq_sub_one] at top
    omega

/-- One more byte below those that were read. -/
theorem toNat_push {v : BitVec 64} {b : BitVec 8} (room : v.toNat < 2 ^ 56) :
    (v <<< 8 ||| b.setWidth 64).toNat = v.toNat * 2 ^ 8 + b.toNat := by
  have byte := b.isLt
  rw [BitVec.toNat_or, BitVec.toNat_shiftLeft, BitVec.toNat_setWidth, Nat.mod_eq_of_lt (by omega : b.toNat < 2 ^ 64),
    Nat.mod_eq_of_lt (by rw [Nat.shiftLeft_eq]; omega), ← Nat.shiftLeft_add_eq_or_of_lt byte, Nat.shiftLeft_eq]

theorem toNat_bytes (m : Mem) (a : BitVec 64) (n : ℕ) : n ≤ 8 → ∀ {v : BitVec 64}, v.toNat < 2 ^ (64 - 8 * n) →
    ((List.range n).reverse.foldl
      (fun (v : BitVec 64) i => v <<< 8 ||| (m.get (a + BitVec.ofNat 64 i)).setWidth 64) v).toNat =
      v.toNat * 2 ^ (8 * n) + littleEndian m a n := by
  induction n with
  | zero =>
    intro _ v _
    simp [littleEndian]
  | succ n ih =>
    intro short v room
    have byte := (m.get (a + BitVec.ofNat 64 n)).isLt
    have wider : 2 ^ (64 - 8 * n) = 2 ^ (64 - 8 * (n + 1)) * 2 ^ 8 := by
      rw [← pow_add]
      congr 1
      omega
    have fits : v.toNat < 2 ^ 56 := lt_of_lt_of_le room (Nat.pow_le_pow_right (by norm_num) (by omega))
    have pushed := toNat_push (b := m.get (a + BitVec.ofNat 64 n)) fits
    rw [List.range_succ, List.reverse_append, List.reverse_singleton, List.singleton_append, List.foldl_cons,
      ih (by omega) (by rw [pushed, wider]; omega), pushed, littleEndian, show 8 * (n + 1) = 8 + 8 * n by ring, pow_add]
    ring

theorem toNat_rd (m : Mem) (a : BitVec 64) {n : ℕ} (short : n ≤ 8) : (m.rd a n).toNat = littleEndian m a n := by
  unfold Mem.rd
  rw [toNat_bytes m a n short (by simp)]
  simp

theorem toNat_append {n k : ℕ} (x : BitVec n) (y : BitVec k) : (x ++ y).toNat = x.toNat * 2 ^ k + y.toNat := by
  rw [BitVec.toNat_append, ← Nat.shiftLeft_add_eq_or_of_lt y.isLt, Nat.shiftLeft_eq]

theorem toNat_rd32 (m : Mem) (a : BitVec 64) : (PtxModel.rd32 (memory m) a).toNat = littleEndian m a 4 := by
  simp only [PtxModel.rd32, toNat_append, littleEndian, memory]
  simp
  ring

theorem rd_eq (m : Mem) (a : BitVec 64) (t : Ty) :
    m.rd a (width t / 8) = PtxModel.rd (memory m) a (PtxModel.size t) := by
  apply BitVec.eq_of_toNat_eq
  rw [bytes_eq]
  cases PtxModel.size t with
  | b4 =>
    rw [PtxModel.rd, PtxModel.Size.bytes, toNat_rd m a (by norm_num), BitVec.toNat_setWidth, toNat_rd32,
      Nat.mod_eq_of_lt]
    exact lt_trans (littleEndian_lt m a 4) (by norm_num)
  | b8 =>
    rw [PtxModel.rd, PtxModel.Size.bytes, toNat_rd m a (by norm_num), PtxModel.rd64, toNat_append, toNat_rd32,
      toNat_rd32]
    simp [littleEndian, add_assoc]
    ring

/-- Each byte of a write, by its distance from the address. -/
theorem get_wr (m : Mem) (a v : BitVec 64) (n : ℕ) (short : n ≤ 8) (x : BitVec 64) :
    (m.wr a n v).get x = if (x - a).toNat < n then (v >>> (8 * (x - a).toNat)).setWidth 8 else m.get x := by
  unfold Mem.wr
  induction n with
  | zero => simp
  | succ n ih =>
    rw [List.range_succ, List.foldl_append, List.foldl_cons, List.foldl_nil]
    have small : (BitVec.ofNat 64 n).toNat = n := by
      rw [BitVec.toNat_ofNat, Nat.mod_eq_of_lt (by omega)]
    by_cases here : x = a + BitVec.ofNat 64 n
    · have distance : (x - a).toNat = n := by
        rw [here, BitVec.add_comm, BitVec.add_sub_cancel, small]
      rw [if_pos (by omega), distance]
      simp [Mem.get, HashMap.insert, here]
    · have distance : (x - a).toNat ≠ n := by
        intro same
        apply here
        rw [← same, BitVec.ofNat_toNat, BitVec.setWidth_eq, BitVec.add_comm, BitVec.sub_add_cancel]
      have before := ih (by omega)
      simp only [Mem.get, HashMap.insert, Function.update_of_ne here] at before ⊢
      rw [before]
      by_cases inside : (x - a).toNat < n
      · rw [if_pos inside, if_pos (by omega)]
      · rw [if_neg inside, if_neg (by omega)]

theorem wr_eq (m : Mem) (a v : BitVec 64) (t : Ty) :
    memory (m.wr a (width t / 8) v) = PtxModel.wr (memory m) a (PtxModel.size t) v := by
  funext x
  have short : (PtxModel.size t).bytes ≤ 8 := by cases PtxModel.size t <;> decide
  rw [bytes_eq]
  exact get_wr m a v _ short x

theorem fmt_eq : fmt t = PtxModel.fmt t := by cases t <;> rfl

theorem fmt_fits : FpBits.FitsWord (fmt t) := by
  unfold fmt
  split
  · exact FpBits.fitsWord_f64
  · exact FpBits.fitsWord_f32

theorem fbits_eq : (fbits t v).toNat = PtxModel.fbits t v := by
  unfold fbits PtxModel.fbits
  rw [fit, width_eq]
  cases PtxModel.width t with
  | w32 => exact toNat_lo32_model v
  | w64 => rfl

theorem fbits_inFormat {t : Ty} (float : t.isFloat = true) (v : BitVec 64) : FpBits.InFormat (fmt t) (fbits t v) := by
  unfold FpBits.InFormat
  cases t with
  | f32 =>
    show (lo32 v).toNat < 2 ^ 32
    rw [toNat_lo32]
    exact Nat.mod_lt _ (by norm_num)
  | f64 => exact v.isLt
  | _ => contradiction

/-- A result of a float type is the model's with a zero oracle. -/
theorem fres_eq {t : Ty} (float : t.isFloat = true) (c : Ctx) (s : TState) {r : Option (BitVec 64)} {model : Option ℕ}
    (same : FpBits.EncodesResult (fmt t) r model) : fres t r = PtxModel.fres (context c) (state s) t model := by
  cases same with
  | none =>
    have zero : PtxModel.fbits t ((context c).nan (state s)) = 0 := by
      unfold PtxModel.fbits
      cases PtxModel.width t <;> rfl
    rw [PtxModel.fres, zero, ← fmt_eq]
    cases t with
    | f32 => decide
    | f64 => decide
    | _ => contradiction
  | some pattern =>
    obtain ⟨rfl, -⟩ := pattern
    simp [fres, PtxModel.fres]

/-- A result of a float type fits in a register of that type. -/
theorem encoded_narrow {t : Ty} (float : t.isFloat = true) {r : Option (BitVec 64)} {model : Option ℕ}
    (same : FpBits.EncodesResult (fmt t) r model) (narrow : width t = 32) : (fres t r).toNat < 2 ^ 32 := by
  cases t with
  | f32 =>
    cases same with
    | none => decide
    | some pattern => exact pattern.2
  | f64 => contradiction
  | _ => contradiction

theorem intOf_eq : intOf t v = PtxModel.intOf t v := by
  unfold intOf PtxModel.intOf
  rw [width_eq, signed_eq]
  cases PtxModel.width t <;> cases PtxModel.signed t <;> rfl

theorem intOf_small : (intOf t v).natAbs < 2 ^ 128 := by
  have unsigned := v.isLt
  have half := (v.setWidth 32).isLt
  have signed := BitVec.toInt_lt (x := v)
  have signedLow := BitVec.le_toInt v
  have halfSigned := BitVec.toInt_lt (x := v.setWidth 32)
  have halfLow := BitVec.le_toInt (v.setWidth 32)
  unfold intOf
  split <;> omega

theorem cvtFloat_eq {dt st : Ty} {r : CvtRnd} (form : PtxParser.cvtForm dt st r = true) (ftz sat : Bool) (c : Ctx)
    (s : TState) (a : BitVec 64) :
    ∃ v, cvtFloat dt st r ftz sat a = some (some v) ∧
      PtxModel.cvtFloat (context c) (state s) dt st r ftz sat a = some v ∧ (width dt = 32 → v.toNat < 2 ^ 32) := by
  unfold PtxParser.cvtForm at form
  split at form
  · next m target source =>
    have short : width dt = 32 ∨ width dt = 64 := by cases dt <;> decide
    obtain ⟨v, computed, value, inside⟩ := FpBits.toInt_agrees (fmt_fits st) m (ftz && decide (st = .f32))
      (isSigned dt) (w := width dt) (by omega) (by omega) (fbits_inFormat source a)
    rw [fbits_eq, fmt_eq, signed_eq] at value
    refine ⟨fit dt v, ?_, ?_, ?_⟩
    · simp [cvtFloat, target, source, computed]
    · have bits := width_eq dt
      cases size : PtxModel.width dt <;>
      · rw [size] at bits
        rw [bits] at value
        simp only [PtxModel.cvtFloat, target, source, size, ← value, fit_eq, BitVec.ofNat_toNat, BitVec.setWidth_eq]
    · intro narrow
      rw [fit, if_pos narrow, toNat_lo32]
      exact Nat.mod_lt _ (by norm_num)
  · next m target source =>
    obtain ⟨v, computed, encoded⟩ := FpBits.ofInt_agrees (fmt_fits dt) m false (intOf_small st a)
    have same := FpBits.sat_encodes (fmt_fits dt) sat (.some encoded)
    refine ⟨fres dt (FpBits.sat (fmt dt) sat (some v)), ?_, ?_, encoded_narrow target same⟩
    · simp [cvtFloat, target, source, computed]
    · rw [fres_eq target c s same, fmt_eq, intOf_eq]
      simp only [PtxModel.cvtFloat, target, source]
  · next m target source =>
    have equal : dt = st := of_decide_eq_true form
    subst equal
    obtain ⟨v, computed, same⟩ := FpBits.roundIntegral_agrees (fmt_fits dt) m (ftz && decide (dt = .f32))
      (fbits_inFormat target a)
    have saturated := FpBits.sat_encodes (fmt_fits dt) sat same
    refine ⟨fres dt (FpBits.sat (fmt dt) sat v), ?_, ?_, encoded_narrow target saturated⟩
    · simp [cvtFloat, target, computed]
    · rw [fres_eq target c s saturated, fmt_eq, fbits_eq]
      simp only [PtxModel.cvtFloat, target, if_true]
  · next m target source =>
    obtain ⟨rfl, rfl⟩ : dt = .f32 ∧ st = .f64 := by simpa using form
    obtain ⟨v, computed, same⟩ := FpBits.convertF_agrees (fmt_fits .f32) (fmt_fits .f64) m ftz sat
      (fbits_inFormat source a)
    refine ⟨fres .f32 v, ?_, ?_, encoded_narrow target same⟩
    · simp [cvtFloat, Ty.isFloat, computed]
    · rw [fres_eq target c s same, fmt_eq, fmt_eq, fbits_eq]
      simp only [PtxModel.cvtFloat, Ty.isFloat, and_self, if_true]
  · next target source =>
    obtain ⟨rfl, rfl⟩ : dt = .f64 ∧ st = .f32 := by simpa using form
    obtain ⟨v, computed, same⟩ := FpBits.convertF_agrees (fmt_fits .f64) (fmt_fits .f32) .rn ftz sat
      (fbits_inFormat source a)
    refine ⟨fres .f64 v, ?_, ?_, encoded_narrow target same⟩
    · simp [cvtFloat, Ty.isFloat, computed]
    · rw [fres_eq target c s same, fmt_eq, fmt_eq, fbits_eq]
      simp only [PtxModel.cvtFloat, Ty.isFloat, and_self, if_true]
  · contradiction

end E5r.PtxValues
