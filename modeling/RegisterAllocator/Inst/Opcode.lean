import RegisterAllocator.Register.Basic

/-!
# Opcodes

The families of operations, each with the mnemonic of every member, and the register files that a member works on
where its family does not decide them. In each family `all` lists the members and `ofMnemonic?` finds one by its mnemonic.
-/

namespace RegisterAllocator

inductive BinaryOp where
  | add | addw | sub | subw | sll | sllw | srl | srlw | sra | sraw | xor | or | and | slt | sltu | mul
  | mulw | mulh | mulhsu | mulhu | div | divw | divu | divuw | rem | remw | remu | remuw | addUw
  | sh1add | sh2add | sh3add | andn | orn | xnor | max | maxu | min | minu
deriving DecidableEq, Repr

namespace BinaryOp

def all : List BinaryOp :=
  [.add, .addw, .sub, .subw, .sll, .sllw, .srl, .srlw, .sra, .sraw, .xor, .or, .and, .slt, .sltu, .mul,
    .mulw, .mulh, .mulhsu, .mulhu, .div, .divw, .divu, .divuw, .rem, .remw, .remu, .remuw, .addUw,
    .sh1add, .sh2add, .sh3add, .andn, .orn, .xnor, .max, .maxu, .min, .minu]

def mnemonic : BinaryOp → String
  | add => "add"
  | addw => "addw"
  | sub => "sub"
  | subw => "subw"
  | sll => "sll"
  | sllw => "sllw"
  | srl => "srl"
  | srlw => "srlw"
  | sra => "sra"
  | sraw => "sraw"
  | xor => "xor"
  | or => "or"
  | and => "and"
  | slt => "slt"
  | sltu => "sltu"
  | mul => "mul"
  | mulw => "mulw"
  | mulh => "mulh"
  | mulhsu => "mulhsu"
  | mulhu => "mulhu"
  | div => "div"
  | divw => "divw"
  | divu => "divu"
  | divuw => "divuw"
  | rem => "rem"
  | remw => "remw"
  | remu => "remu"
  | remuw => "remuw"
  | addUw => "add.uw"
  | sh1add => "sh1add"
  | sh2add => "sh2add"
  | sh3add => "sh3add"
  | andn => "andn"
  | orn => "orn"
  | xnor => "xnor"
  | max => "max"
  | maxu => "maxu"
  | min => "min"
  | minu => "minu"

def ofMnemonic? (text : String) : Option BinaryOp := all.find? (·.mnemonic == text)

end BinaryOp

inductive ImmediateOp where
  | addi | addiw | slli | slliw | srli | srliw | srai | sraiw | xori | ori | andi | slti | sltiu
deriving DecidableEq, Repr

namespace ImmediateOp

def all : List ImmediateOp :=
  [.addi, .addiw, .slli, .slliw, .srli, .srliw, .srai, .sraiw, .xori, .ori, .andi, .slti, .sltiu]

def mnemonic : ImmediateOp → String
  | addi => "addi"
  | addiw => "addiw"
  | slli => "slli"
  | slliw => "slliw"
  | srli => "srli"
  | srliw => "srliw"
  | srai => "srai"
  | sraiw => "sraiw"
  | xori => "xori"
  | ori => "ori"
  | andi => "andi"
  | slti => "slti"
  | sltiu => "sltiu"

def ofMnemonic? (text : String) : Option ImmediateOp := all.find? (·.mnemonic == text)

end ImmediateOp

inductive UnaryOp where
  | clz | clzw | ctz | ctzw | cpop | cpopw | sextB | sextH | zextH
deriving DecidableEq, Repr

namespace UnaryOp

def all : List UnaryOp :=
  [.clz, .clzw, .ctz, .ctzw, .cpop, .cpopw, .sextB, .sextH, .zextH]

def mnemonic : UnaryOp → String
  | clz => "clz"
  | clzw => "clzw"
  | ctz => "ctz"
  | ctzw => "ctzw"
  | cpop => "cpop"
  | cpopw => "cpopw"
  | sextB => "sext.b"
  | sextH => "sext.h"
  | zextH => "zext.h"

def ofMnemonic? (text : String) : Option UnaryOp := all.find? (·.mnemonic == text)

end UnaryOp

/-- Float operations on one register: roots, classes, conversions and moves between files. -/
inductive FloatUnaryOp where
  | fsqrtS | fsqrtD | fclassS | fclassD | fcvtSW | fcvtSWu | fcvtSL | fcvtSLu | fcvtWS | fcvtWuS
  | fcvtLS | fcvtLuS | fcvtDW | fcvtDWu | fcvtDL | fcvtDLu | fcvtWD | fcvtWuD | fcvtLD | fcvtLuD
  | fcvtSD | fcvtDS | fmvWX | fmvXW | fmvDX | fmvXD
deriving DecidableEq, Repr

namespace FloatUnaryOp

def all : List FloatUnaryOp :=
  [.fsqrtS, .fsqrtD, .fclassS, .fclassD, .fcvtSW, .fcvtSWu, .fcvtSL, .fcvtSLu, .fcvtWS, .fcvtWuS,
    .fcvtLS, .fcvtLuS, .fcvtDW, .fcvtDWu, .fcvtDL, .fcvtDLu, .fcvtWD, .fcvtWuD, .fcvtLD, .fcvtLuD,
    .fcvtSD, .fcvtDS, .fmvWX, .fmvXW, .fmvDX, .fmvXD]

def mnemonic : FloatUnaryOp → String
  | fsqrtS => "fsqrt.s"
  | fsqrtD => "fsqrt.d"
  | fclassS => "fclass.s"
  | fclassD => "fclass.d"
  | fcvtSW => "fcvt.s.w"
  | fcvtSWu => "fcvt.s.wu"
  | fcvtSL => "fcvt.s.l"
  | fcvtSLu => "fcvt.s.lu"
  | fcvtWS => "fcvt.w.s"
  | fcvtWuS => "fcvt.wu.s"
  | fcvtLS => "fcvt.l.s"
  | fcvtLuS => "fcvt.lu.s"
  | fcvtDW => "fcvt.d.w"
  | fcvtDWu => "fcvt.d.wu"
  | fcvtDL => "fcvt.d.l"
  | fcvtDLu => "fcvt.d.lu"
  | fcvtWD => "fcvt.w.d"
  | fcvtWuD => "fcvt.wu.d"
  | fcvtLD => "fcvt.l.d"
  | fcvtLuD => "fcvt.lu.d"
  | fcvtSD => "fcvt.s.d"
  | fcvtDS => "fcvt.d.s"
  | fmvWX => "fmv.w.x"
  | fmvXW => "fmv.x.w"
  | fmvDX => "fmv.d.x"
  | fmvXD => "fmv.x.d"

def ofMnemonic? (text : String) : Option FloatUnaryOp := all.find? (·.mnemonic == text)

/-- The files of the destination and of the source. -/
def files : FloatUnaryOp → RegFile × RegFile
  | fsqrtS | fsqrtD | fcvtSD | fcvtDS => (.float, .float)
  | fclassS | fclassD | fcvtWS | fcvtWuS | fcvtLS | fcvtLuS | fcvtWD | fcvtWuD | fcvtLD | fcvtLuD | fmvXW
  | fmvXD => (.general, .float)
  | fcvtSW | fcvtSWu | fcvtSL | fcvtSLu | fcvtDW | fcvtDWu | fcvtDL | fcvtDLu | fmvWX | fmvDX =>
    (.float, .general)

end FloatUnaryOp

/-- Float operations on two registers; comparisons write a general register. -/
inductive FloatBinaryOp where
  | faddS | faddD | fsubS | fsubD | fmulS | fmulD | fdivS | fdivD | fminS | fminD | fmaxS | fmaxD
  | fsgnjS | fsgnjD | fsgnjnS | fsgnjnD | fsgnjxS | fsgnjxD | feqS | feqD | fltS | fltD | fleS | fleD
deriving DecidableEq, Repr

namespace FloatBinaryOp

def all : List FloatBinaryOp :=
  [.faddS, .faddD, .fsubS, .fsubD, .fmulS, .fmulD, .fdivS, .fdivD, .fminS, .fminD, .fmaxS, .fmaxD,
    .fsgnjS, .fsgnjD, .fsgnjnS, .fsgnjnD, .fsgnjxS, .fsgnjxD, .feqS, .feqD, .fltS, .fltD, .fleS, .fleD]

def mnemonic : FloatBinaryOp → String
  | faddS => "fadd.s"
  | faddD => "fadd.d"
  | fsubS => "fsub.s"
  | fsubD => "fsub.d"
  | fmulS => "fmul.s"
  | fmulD => "fmul.d"
  | fdivS => "fdiv.s"
  | fdivD => "fdiv.d"
  | fminS => "fmin.s"
  | fminD => "fmin.d"
  | fmaxS => "fmax.s"
  | fmaxD => "fmax.d"
  | fsgnjS => "fsgnj.s"
  | fsgnjD => "fsgnj.d"
  | fsgnjnS => "fsgnjn.s"
  | fsgnjnD => "fsgnjn.d"
  | fsgnjxS => "fsgnjx.s"
  | fsgnjxD => "fsgnjx.d"
  | feqS => "feq.s"
  | feqD => "feq.d"
  | fltS => "flt.s"
  | fltD => "flt.d"
  | fleS => "fle.s"
  | fleD => "fle.d"

def ofMnemonic? (text : String) : Option FloatBinaryOp := all.find? (·.mnemonic == text)

/-- The file of the destination; the sources are float registers. -/
def file : FloatBinaryOp → RegFile
  | feqS | feqD | fltS | fltD | fleS | fleD => .general
  | _ => .float

end FloatBinaryOp

inductive FusedOp where
  | fmaddS | fmaddD | fmsubS | fmsubD | fnmaddS | fnmaddD | fnmsubS | fnmsubD
deriving DecidableEq, Repr

namespace FusedOp

def all : List FusedOp :=
  [.fmaddS, .fmaddD, .fmsubS, .fmsubD, .fnmaddS, .fnmaddD, .fnmsubS, .fnmsubD]

def mnemonic : FusedOp → String
  | fmaddS => "fmadd.s"
  | fmaddD => "fmadd.d"
  | fmsubS => "fmsub.s"
  | fmsubD => "fmsub.d"
  | fnmaddS => "fnmadd.s"
  | fnmaddD => "fnmadd.d"
  | fnmsubS => "fnmsub.s"
  | fnmsubD => "fnmsub.d"

def ofMnemonic? (text : String) : Option FusedOp := all.find? (·.mnemonic == text)

end FusedOp

inductive LoadOp where
  | lb | lh | lw | ld | lbu | lhu | lwu | flw | fld
deriving DecidableEq, Repr

namespace LoadOp

def all : List LoadOp :=
  [.lb, .lh, .lw, .ld, .lbu, .lhu, .lwu, .flw, .fld]

def mnemonic : LoadOp → String
  | lb => "lb"
  | lh => "lh"
  | lw => "lw"
  | ld => "ld"
  | lbu => "lbu"
  | lhu => "lhu"
  | lwu => "lwu"
  | flw => "flw"
  | fld => "fld"

def ofMnemonic? (text : String) : Option LoadOp := all.find? (·.mnemonic == text)

def file : LoadOp → RegFile
  | flw | fld => .float
  | _ => .general

end LoadOp

inductive StoreOp where
  | sb | sh | sw | sd | fsw | fsd
deriving DecidableEq, Repr

namespace StoreOp

def all : List StoreOp :=
  [.sb, .sh, .sw, .sd, .fsw, .fsd]

def mnemonic : StoreOp → String
  | sb => "sb"
  | sh => "sh"
  | sw => "sw"
  | sd => "sd"
  | fsw => "fsw"
  | fsd => "fsd"

def ofMnemonic? (text : String) : Option StoreOp := all.find? (·.mnemonic == text)

def file : StoreOp → RegFile
  | fsw | fsd => .float
  | _ => .general

end StoreOp

inductive BranchOp where
  | beq | bne | blt | bge | bltu | bgeu
deriving DecidableEq, Repr

namespace BranchOp

def all : List BranchOp :=
  [.beq, .bne, .blt, .bge, .bltu, .bgeu]

def mnemonic : BranchOp → String
  | beq => "beq"
  | bne => "bne"
  | blt => "blt"
  | bge => "bge"
  | bltu => "bltu"
  | bgeu => "bgeu"

def ofMnemonic? (text : String) : Option BranchOp := all.find? (·.mnemonic == text)

end BranchOp

inductive Rounding where
  /-- To the nearest, ties to even. -/
  | rne
  /-- Towards zero. -/
  | rtz
  /-- Down. -/
  | rdn
  /-- Up. -/
  | rup
  /-- To the nearest, ties away from zero. -/
  | rmm
  /-- The mode set at run time, which is not written. -/
  | dyn
deriving DecidableEq, Repr

namespace Rounding

def ofMnemonic? : String → Option Rounding
  | "rne" => some rne
  | "rtz" => some rtz
  | "rdn" => some rdn
  | "rup" => some rup
  | "rmm" => some rmm
  | "dyn" => some dyn
  | _ => none

def suffix : Rounding → String
  | rne => ", rne"
  | rtz => ", rtz"
  | rdn => ", rdn"
  | rup => ", rup"
  | rmm => ", rmm"
  | dyn => ""

end Rounding

end RegisterAllocator
