import CilMmix.Code.Op

/-! The catalogue of instructions: the number and the name that stored modules use for each, and the
kind of its operand. Both file formats are read and written through it. -/

namespace CilMmix

/-- The operand of an instruction as it is stored. -/
inductive StoredOperand where
  | plain
  | slot (i : UInt16)
  | int32 (n : Int32)
  | int64 (n : Int64)
  | real32 (x : Binary32)
  | real64 (x : Binary64)
  | text (s : String)
  | method (m : MethodRef)
  | target (t : UInt32)
  | targets (ts : List UInt32)
  | width (w : Width)
  | conversion (k : Conversion)
  | type (t : TypeRef)
  | field (f : FieldRef)
  | byte (n : UInt8)

/-- An instruction that waits for its operand. -/
inductive Form where
  | plain (op : Op)
  | slot (make : UInt16 → Op)
  | int32 (make : Int32 → Op)
  | int64 (make : Int64 → Op)
  | real32 (make : Binary32 → Op)
  | real64 (make : Binary64 → Op)
  | text (make : String → Op)
  | method (make : MethodRef → Op)
  | target (make : UInt32 → Op)
  | targets (make : List UInt32 → Op)
  | width (make : Width → Op)
  | conversion (make : Conversion → Op)
  | type (make : TypeRef → Op)
  | field (make : FieldRef → Op)
  | byte (make : UInt8 → Op)

structure Variant where
  name : String
  form : Form

namespace Op

/-- All instructions in the order of their numbers. -/
def catalogue : Vector Variant 112 :=
  #v[
    ⟨"Nop", .plain .nop⟩,
    ⟨"Break", .plain .breakpoint⟩,
    ⟨"Ldarg", .slot fun i => .load (.arg i)⟩,
    ⟨"Ldarga", .slot fun i => .address (.arg i)⟩,
    ⟨"Starg", .slot fun i => .store (.arg i)⟩,
    ⟨"Ldloc", .slot fun i => .load (.loc i)⟩,
    ⟨"Ldloca", .slot fun i => .address (.loc i)⟩,
    ⟨"Stloc", .slot fun i => .store (.loc i)⟩,
    ⟨"Ldnull", .plain (.push .null)⟩,
    ⟨"LdcI4", .int32 fun n => .push (.int32 n)⟩,
    ⟨"LdcI8", .int64 fun n => .push (.int64 n)⟩,
    ⟨"LdcR4", .real32 fun x => .push (.real32 x)⟩,
    ⟨"LdcR8", .real64 fun x => .push (.real64 x)⟩,
    ⟨"Ldstr", .text fun s => .push (.str s)⟩,
    ⟨"Dup", .plain .dup⟩,
    ⟨"Pop", .plain .pop⟩,
    ⟨"Jmp", .method .jmp⟩,
    ⟨"Call", .method .call⟩,
    ⟨"Calli", .plain .calli⟩,
    ⟨"Callvirt", .method .callvirt⟩,
    ⟨"Ret", .plain .ret⟩,
    ⟨"Br", .target .br⟩,
    ⟨"Brfalse", .target .brFalse⟩,
    ⟨"Brtrue", .target .brTrue⟩,
    ⟨"Beq", .target (.brIf .eq)⟩,
    ⟨"Bge", .target (.brIf .ge)⟩,
    ⟨"Bgt", .target (.brIf .gt)⟩,
    ⟨"Ble", .target (.brIf .le)⟩,
    ⟨"Blt", .target (.brIf .lt)⟩,
    ⟨"BneUn", .target (.brIf .neUn)⟩,
    ⟨"BgeUn", .target (.brIf .geUn)⟩,
    ⟨"BgtUn", .target (.brIf .gtUn)⟩,
    ⟨"BleUn", .target (.brIf .leUn)⟩,
    ⟨"BltUn", .target (.brIf .ltUn)⟩,
    ⟨"Switch", .targets .switch⟩,
    ⟨"Leave", .target .leave⟩,
    ⟨"Endfinally", .plain .endfinally⟩,
    ⟨"Endfilter", .plain .endfilter⟩,
    ⟨"Throw", .plain .throw⟩,
    ⟨"Rethrow", .plain .rethrow⟩,
    ⟨"Ldind", .width .ldind⟩,
    ⟨"Stind", .width .stind⟩,
    ⟨"Cpblk", .plain .cpblk⟩,
    ⟨"Initblk", .plain .initblk⟩,
    ⟨"Localloc", .plain .localloc⟩,
    ⟨"Add", .plain (.arith .add)⟩,
    ⟨"Sub", .plain (.arith .sub)⟩,
    ⟨"Mul", .plain (.arith .mul)⟩,
    ⟨"Div", .plain (.arith .div)⟩,
    ⟨"DivUn", .plain (.arith .divUn)⟩,
    ⟨"Rem", .plain (.arith .rem)⟩,
    ⟨"RemUn", .plain (.arith .remUn)⟩,
    ⟨"And", .plain (.arith .and)⟩,
    ⟨"Or", .plain (.arith .or)⟩,
    ⟨"Xor", .plain (.arith .xor)⟩,
    ⟨"Shl", .plain (.arith .shl)⟩,
    ⟨"Shr", .plain (.arith .shr)⟩,
    ⟨"ShrUn", .plain (.arith .shrUn)⟩,
    ⟨"Neg", .plain .neg⟩,
    ⟨"Not", .plain .not⟩,
    ⟨"AddOvf", .plain (.checked .add)⟩,
    ⟨"AddOvfUn", .plain (.checked .addUn)⟩,
    ⟨"SubOvf", .plain (.checked .sub)⟩,
    ⟨"SubOvfUn", .plain (.checked .subUn)⟩,
    ⟨"MulOvf", .plain (.checked .mul)⟩,
    ⟨"MulOvfUn", .plain (.checked .mulUn)⟩,
    ⟨"Ckfinite", .plain .ckfinite⟩,
    ⟨"Conv", .conversion (.conv .none)⟩,
    ⟨"ConvOvf", .conversion (.conv .signed)⟩,
    ⟨"ConvOvfUn", .conversion (.conv .unsigned)⟩,
    ⟨"Ceq", .plain (.compare .eq)⟩,
    ⟨"Cgt", .plain (.compare .gt)⟩,
    ⟨"CgtUn", .plain (.compare .gtUn)⟩,
    ⟨"Clt", .plain (.compare .lt)⟩,
    ⟨"CltUn", .plain (.compare .ltUn)⟩,
    ⟨"Newobj", .method .newobj⟩,
    ⟨"Castclass", .type .castclass⟩,
    ⟨"Isinst", .type .isinst⟩,
    ⟨"Box", .type .box⟩,
    ⟨"Unbox", .type .unbox⟩,
    ⟨"UnboxAny", .type .unboxAny⟩,
    ⟨"Ldfld", .field (.field .load)⟩,
    ⟨"Ldflda", .field (.field .address)⟩,
    ⟨"Stfld", .field (.field .store)⟩,
    ⟨"Ldsfld", .field (.staticField .load)⟩,
    ⟨"Ldsflda", .field (.staticField .address)⟩,
    ⟨"Stsfld", .field (.staticField .store)⟩,
    ⟨"Ldobj", .type .ldobj⟩,
    ⟨"Stobj", .type .stobj⟩,
    ⟨"Cpobj", .type .cpobj⟩,
    ⟨"Initobj", .type .initobj⟩,
    ⟨"Sizeof", .type .sizeof⟩,
    ⟨"Ldtoken", .plain .ldtoken⟩,
    ⟨"Ldftn", .method .ldftn⟩,
    ⟨"Ldvirtftn", .method .ldvirtftn⟩,
    ⟨"Mkrefany", .type .mkrefany⟩,
    ⟨"Refanyval", .type .refanyval⟩,
    ⟨"Refanytype", .plain .refanytype⟩,
    ⟨"Arglist", .plain .arglist⟩,
    ⟨"Newarr", .type .newarr⟩,
    ⟨"Ldlen", .plain .ldlen⟩,
    ⟨"Ldelema", .type .ldelema⟩,
    ⟨"Ldelem", .width .ldelem⟩,
    ⟨"Stelem", .width .stelem⟩,
    ⟨"LdelemAny", .type .ldelemAny⟩,
    ⟨"StelemAny", .type .stelemAny⟩,
    ⟨"Unaligned", .byte .unaligned⟩,
    ⟨"Volatile", .plain .volatile⟩,
    ⟨"Tail", .plain .tail⟩,
    ⟨"Constrained", .type .constrained⟩,
    ⟨"Readonly", .plain .readonly⟩,
    ⟨"No", .byte .no⟩
  ]

/-- An instruction taken apart into its number and its operand. -/
structure Stored where
  number : Fin 112
  operand : StoredOperand

def stored : Op → Stored
  | .nop => ⟨0, .plain⟩
  | .breakpoint => ⟨1, .plain⟩
  | .load (.arg i) => ⟨2, .slot i⟩
  | .address (.arg i) => ⟨3, .slot i⟩
  | .store (.arg i) => ⟨4, .slot i⟩
  | .load (.loc i) => ⟨5, .slot i⟩
  | .address (.loc i) => ⟨6, .slot i⟩
  | .store (.loc i) => ⟨7, .slot i⟩
  | .push .null => ⟨8, .plain⟩
  | .push (.int32 n) => ⟨9, .int32 n⟩
  | .push (.int64 n) => ⟨10, .int64 n⟩
  | .push (.real32 x) => ⟨11, .real32 x⟩
  | .push (.real64 x) => ⟨12, .real64 x⟩
  | .push (.str s) => ⟨13, .text s⟩
  | .dup => ⟨14, .plain⟩
  | .pop => ⟨15, .plain⟩
  | .jmp m => ⟨16, .method m⟩
  | .call m => ⟨17, .method m⟩
  | .calli => ⟨18, .plain⟩
  | .callvirt m => ⟨19, .method m⟩
  | .ret => ⟨20, .plain⟩
  | .br t => ⟨21, .target t⟩
  | .brFalse t => ⟨22, .target t⟩
  | .brTrue t => ⟨23, .target t⟩
  | .brIf .eq t => ⟨24, .target t⟩
  | .brIf .ge t => ⟨25, .target t⟩
  | .brIf .gt t => ⟨26, .target t⟩
  | .brIf .le t => ⟨27, .target t⟩
  | .brIf .lt t => ⟨28, .target t⟩
  | .brIf .neUn t => ⟨29, .target t⟩
  | .brIf .geUn t => ⟨30, .target t⟩
  | .brIf .gtUn t => ⟨31, .target t⟩
  | .brIf .leUn t => ⟨32, .target t⟩
  | .brIf .ltUn t => ⟨33, .target t⟩
  | .switch ts => ⟨34, .targets ts⟩
  | .leave t => ⟨35, .target t⟩
  | .endfinally => ⟨36, .plain⟩
  | .endfilter => ⟨37, .plain⟩
  | .throw => ⟨38, .plain⟩
  | .rethrow => ⟨39, .plain⟩
  | .ldind w => ⟨40, .width w⟩
  | .stind w => ⟨41, .width w⟩
  | .cpblk => ⟨42, .plain⟩
  | .initblk => ⟨43, .plain⟩
  | .localloc => ⟨44, .plain⟩
  | .arith .add => ⟨45, .plain⟩
  | .arith .sub => ⟨46, .plain⟩
  | .arith .mul => ⟨47, .plain⟩
  | .arith .div => ⟨48, .plain⟩
  | .arith .divUn => ⟨49, .plain⟩
  | .arith .rem => ⟨50, .plain⟩
  | .arith .remUn => ⟨51, .plain⟩
  | .arith .and => ⟨52, .plain⟩
  | .arith .or => ⟨53, .plain⟩
  | .arith .xor => ⟨54, .plain⟩
  | .arith .shl => ⟨55, .plain⟩
  | .arith .shr => ⟨56, .plain⟩
  | .arith .shrUn => ⟨57, .plain⟩
  | .neg => ⟨58, .plain⟩
  | .not => ⟨59, .plain⟩
  | .checked .add => ⟨60, .plain⟩
  | .checked .addUn => ⟨61, .plain⟩
  | .checked .sub => ⟨62, .plain⟩
  | .checked .subUn => ⟨63, .plain⟩
  | .checked .mul => ⟨64, .plain⟩
  | .checked .mulUn => ⟨65, .plain⟩
  | .ckfinite => ⟨66, .plain⟩
  | .conv .none k => ⟨67, .conversion k⟩
  | .conv .signed k => ⟨68, .conversion k⟩
  | .conv .unsigned k => ⟨69, .conversion k⟩
  | .compare .eq => ⟨70, .plain⟩
  | .compare .gt => ⟨71, .plain⟩
  | .compare .gtUn => ⟨72, .plain⟩
  | .compare .lt => ⟨73, .plain⟩
  | .compare .ltUn => ⟨74, .plain⟩
  | .newobj m => ⟨75, .method m⟩
  | .castclass t => ⟨76, .type t⟩
  | .isinst t => ⟨77, .type t⟩
  | .box t => ⟨78, .type t⟩
  | .unbox t => ⟨79, .type t⟩
  | .unboxAny t => ⟨80, .type t⟩
  | .field .load f => ⟨81, .field f⟩
  | .field .address f => ⟨82, .field f⟩
  | .field .store f => ⟨83, .field f⟩
  | .staticField .load f => ⟨84, .field f⟩
  | .staticField .address f => ⟨85, .field f⟩
  | .staticField .store f => ⟨86, .field f⟩
  | .ldobj t => ⟨87, .type t⟩
  | .stobj t => ⟨88, .type t⟩
  | .cpobj t => ⟨89, .type t⟩
  | .initobj t => ⟨90, .type t⟩
  | .sizeof t => ⟨91, .type t⟩
  | .ldtoken => ⟨92, .plain⟩
  | .ldftn m => ⟨93, .method m⟩
  | .ldvirtftn m => ⟨94, .method m⟩
  | .mkrefany t => ⟨95, .type t⟩
  | .refanyval t => ⟨96, .type t⟩
  | .refanytype => ⟨97, .plain⟩
  | .arglist => ⟨98, .plain⟩
  | .newarr t => ⟨99, .type t⟩
  | .ldlen => ⟨100, .plain⟩
  | .ldelema t => ⟨101, .type t⟩
  | .ldelem w => ⟨102, .width w⟩
  | .stelem w => ⟨103, .width w⟩
  | .ldelemAny t => ⟨104, .type t⟩
  | .stelemAny t => ⟨105, .type t⟩
  | .unaligned n => ⟨106, .byte n⟩
  | .volatile => ⟨107, .plain⟩
  | .tail => ⟨108, .plain⟩
  | .constrained t => ⟨109, .type t⟩
  | .readonly => ⟨110, .plain⟩
  | .no n => ⟨111, .byte n⟩

/-- The name that stands for the instruction in text modules. -/
def storedName (op : Op) : String := catalogue[op.stored.number].name

def formNamed? (name : String) : Option Form :=
  (catalogue.toList.find? fun v => v.name == name).map Variant.form

def formNumbered? (number : Nat) : Option Form :=
  catalogue[number]?.map Variant.form

end Op

end CilMmix
