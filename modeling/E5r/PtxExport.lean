import E5r.PtxModel

/-!
The export of a parsed kernel to the reference model, one constructor for each
form. A float literal becomes its bits and an offset left out becomes zero.
-/
namespace E5r.PtxExport
open PtxSyntax

def operand : Operand → PtxModel.Operand
  | .reg r => .reg r
  | .imm v => .imm v
  | .sreg s => .sreg s
  | .sym n => .sym n
  | .fimm v _ => .imm v.toNat

def address : Address → PtxModel.Address
  | .reg r off => .reg r (off.getD 0)
  | .param n off => .param n (off.getD 0)

def instr : Instr → PtxModel.Instr
  | .bin .add t d x y => .add t d (operand x) (operand y)
  | .bin .sub t d x y => .sub t d (operand x) (operand y)
  | .bin .mulLo t d x y => .mulLo t d (operand x) (operand y)
  | .bin .mulWide t d x y => .mulWide t d (operand x) (operand y)
  | .bin .and t d x y => .and t d (operand x) (operand y)
  | .bin .or t d x y => .or t d (operand x) (operand y)
  | .bin .xor t d x y => .xor t d (operand x) (operand y)
  | .bin .shl t d x y => .shl t d (operand x) (operand y)
  | .bin .shr t d x y => .shr t d (operand x) (operand y)
  | .madLo t d a b c => .madLo t d (operand a) (operand b) (operand c)
  | .not t d a => .not t d (operand a)
  | .mov t d a => .mov t d (operand a)
  | .setp c t p a b => .setp c t p (operand a) (operand b)
  | .selp t d a b p => .selp t d (operand a) (operand b) p
  | .cvt dt st d a => .cvt dt st d (operand a)
  | .cvtaGlobal d a => .cvtaGlobal d (operand a)
  | .ld sp t d a => .ld sp t d (address a)
  | .st sp t a v => .st sp t (address a) (operand v)
  | .bra u l => .bra u l
  | .ret => .ret
  | .exit => .exit
  | .atom sp op t d a b => .atom sp op t d (address a) (operand b)
  | .cas sp t d a b c => .cas sp t d (address a) (operand b) (operand c)
  | .red sp op t a b => .red sp op t (address a) (operand b)
  | .bar => .bar
  | .fbin op m ftz sat t d a b => .fbin op m ftz sat t d (operand a) (operand b)
  | .ffma m ftz sat t d a b c => .ffma m ftz sat t d (operand a) (operand b) (operand c)
  | .fsqrt m ftz t d a => .fsqrt m ftz t d (operand a)
  | .frcp m ftz t d a => .frcp m ftz t d (operand a)
  | .fneg ftz t d a => .fneg ftz t d (operand a)
  | .fabs ftz t d a => .fabs ftz t d (operand a)
  | .fminmax mx ftz nan t d a b => .fminmax mx ftz nan t d (operand a) (operand b)
  | .fsetp c ftz t p a b => .fsetp c ftz t p (operand a) (operand b)
  | .cvtF dt st r ftz sat d a => .cvtF dt st r ftz sat d (operand a)

def stmt (s : Stmt) : PtxModel.Stmt := ⟨s.guard, instr s.instr⟩

def sharedVar (d : SharedDecl) : PtxModel.SharedVar := ⟨d.name, d.alignment, d.size⟩

def kernel (k : Kernel) : PtxModel.Kernel := ⟨k.name, k.shared.map sharedVar, k.body.map stmt, k.labels⟩

end E5r.PtxExport
