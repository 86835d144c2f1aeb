import Bispe.Compiler.Parser

/-!
# The code generator

`generator.c`: the walk over the tree that appends instructions to a list and
patches the ones it has appended.  A pointer to an element of the list is the
position of the element.

## Main definitions

* `InstrType`, `instrInfo` — `instructions.h`.
* `CodeElem` — `code_t`.
* `generateHelper`, `generateCode` — the code list of a tree.
-/

namespace Bispe

open Effect

/-- `instr_type`. -/
inductive InstrType
  | nop
  | finish
  | push
  | print
  | load
  | store
  | add
  | sub
  | mul
  | div
  | mod
  | jmp
  | jeq
  | jne
  | jl
  | jle
  | jg
  | jge
  | call
  | ret
  | prolog
  | epilog
  | argload
  deriving DecidableEq, Repr

/-- `struct instr_info`, without the mnemonic. -/
structure InstrInfo where
  hasArg : Bool
  opcode : Word

/-- `instr_info`. -/
def instrInfo : InstrType → InstrInfo
  | .nop => ⟨false, 0x0⟩
  | .finish => ⟨false, 0x01⟩
  | .push => ⟨true, 0x02⟩
  | .print => ⟨false, 0x03⟩
  | .load => ⟨true, 0x04⟩
  | .store => ⟨true, 0x05⟩
  | .add => ⟨false, 0x06⟩
  | .sub => ⟨false, 0x07⟩
  | .mul => ⟨false, 0x08⟩
  | .div => ⟨false, 0x09⟩
  | .mod => ⟨false, 0x0A⟩
  | .jmp => ⟨true, 0x0B⟩
  | .jeq => ⟨true, 0x0C⟩
  | .jne => ⟨true, 0x0D⟩
  | .jl => ⟨true, 0x0E⟩
  | .jle => ⟨true, 0x0F⟩
  -- the table names these two the other way round; the order is that of `instr_type`
  | .jg => ⟨true, 0x10⟩
  | .jge => ⟨true, 0x11⟩
  | .call => ⟨true, 0x12⟩
  | .ret => ⟨false, 0x13⟩
  | .prolog => ⟨true, 0x14⟩
  | .epilog => ⟨true, 0x15⟩
  | .argload => ⟨true, 0x16⟩

/-- `code_t`.  `callee` is not in the source: it says which function a `CALL` was
generated for. -/
structure CodeElem where
  instr : InstrType
  arg : Word
  callee : Option String
  deriving DecidableEq, Repr

/-- The words an element takes in the code. -/
def CodeElem.width (elem : CodeElem) : ℕ := if (instrInfo elem.instr).hasArg then 2 else 1

/-- `boolop_to_jmp_instr`. -/
def boolopToJmpInstr : TokenType → InstrType
  | .tokEqeq => .jeq
  | .tokNeq => .jne
  | .tokGt => .jg
  | .tokLt => .jl
  | .tokGe => .jge
  | .tokLe => .jle
  | _ => .nop

/-- `neg_jmp_instr`. -/
def negJmpInstr : InstrType → InstrType
  | .jeq => .jne
  | .jne => .jeq
  | .jg => .jle
  | .jl => .jge
  | .jge => .jl
  | .jle => .jg
  | _ => .nop

/-- The static variables of `generator.c`, and the symbol tables. -/
structure GState where
  /-- The list from `first` to `current`. -/
  code : List CodeElem
  /-- The size of the list in words. -/
  size : ℕ
  currentFunc : String
  error : Bool
  funcTable : FuncTable

abbrev G := EStateM Abort GState

/-- What `malloc` leaves in the `addr` field of the functions. -/
abbrev Junk := String → Word

/-- `push_elem`, for a call of `callee`. -/
def pushCall (instr : InstrType) (arg : Word) (callee : Option String) : G Unit := fun s =>
  let elem : CodeElem := ⟨instr, arg, callee⟩
  if s.size + elem.width < 2 ^ 31 then
    .ok () { s with code := s.code ++ [elem], size := s.size + elem.width }
  else .error .intOverflow s

/-- `push_elem`. -/
def pushElem (instr : InstrType) (arg : Word) : G Unit := pushCall instr arg none

/-- The position of the element `current` points to. -/
def current : G ℕ := fun s =>
  if s.code = [] then .error .nullDeref s else .ok (s.code.length - 1) s

/-- Change the element at a position. -/
def patch (i : ℕ) (f : CodeElem → CodeElem) : G Unit := modify fun s =>
  { s with code := s.code.modify i f }

def setArg (i : ℕ) (arg : ℕ) : G Unit :=
  patch i fun elem => { elem with arg := BitVec.ofNat 32 arg }

def getSize : G ℕ := fun s => .ok s.size s

/-- Follow a pointer to a function. -/
def derefCallee (name : String) : G FuncInfo := fun s =>
  match s.funcTable name with
  | none => .error .nullDeref s
  | some func => .ok func s

/-- `val.var->pos`. -/
def varPos (func name : String) : G Word := do
  let info ← derefCallee func
  match getVar name info with
  | none => throw .nullDeref
  | some var => pure (BitVec.ofNat 32 var.pos)

def FuncInfo.frameSize (func : FuncInfo) : ℕ := func.varCount + func.maxCallSize

/-- `push_func_prolog`. -/
def pushFuncProlog (func : FuncInfo) : G Unit :=
  if 0 < func.frameSize then pushElem .prolog (BitVec.ofNat 32 func.frameSize) else pure ()

/-- `push_func_epilog`. -/
def pushFuncEpilog (func : FuncInfo) : G Unit :=
  if 0 < func.frameSize then pushElem .epilog (BitVec.ofNat 32 func.frameSize) else pure ()

/-- The instruction of an operator. -/
def numopInstr : TokenType → Option InstrType
  | .tokPlus => some .add
  | .tokMinus => some .sub
  | .tokStar => some .mul
  | .tokSlash => some .div
  | .tokPercent => some .mod
  | _ => none

/-- Store the arguments, from the last to the first. -/
def pushStores : ℕ → G Unit
  | 0 => pure ()
  | i + 1 => do
      pushElem .store (BitVec.ofNat 32 i)
      pushStores i

/-- The call itself: the arguments go from the operand stack to the call stack. -/
def pushFcall (junk : Junk) (name : String) : G Unit := do
  let func ← derefCallee name
  pushStores func.argCount
  pushCall .call (func.addr.getD (junk name)) (some name)

/-- Load the program arguments from `i` on. -/
def pushArgloads : ℕ → ℕ → G Unit
  | _, 0 => pure ()
  | i, n + 1 => do
      pushElem .argload (BitVec.ofNat 32 i)
      pushArgloads (i + 1) n

/-- The start of `AST_FUNCTION`: the address of the function is known. -/
def openFunc (name : String) : G Unit := modify fun s =>
  { s with
    currentFunc := name
    funcTable := Function.update s.funcTable name
      ((s.funcTable name).map fun func => { func with addr := some (BitVec.ofNat 32 s.size) }) }

/-- The end of `AST_FUNCTION`: an epilogue, unless the last instruction returns. -/
def closeFunc (name : String) : G Unit := do
  let last ← current
  let s ← get
  if (s.code.getD last ⟨.nop, 0, none⟩).instr = .ret then pure ()
  else do
    pushFuncEpilog (← derefCallee name)
    pushElem .ret 0

/-- `generate_helper`. -/
def generateHelper (junk : Junk) : Node → G Unit
  | .null => pure ()
  | .mk type val left middle right =>
      match type, val with
      | .astEmpty, _ => pure ()
      | .astIdentifier, .var func name => do pushElem .load (← varPos func name)
      | .astIntliteral, .number number => pushElem .push number
      | .astVarDef, .var func name
      | .astVarAssign, .var func name =>
          -- pure definitions are ignored
          if left = .null then pure ()
          else do
            generateHelper junk left
            pushElem .store (← varPos func name)
      | .astPrint, _ => do
          generateHelper junk left
          pushElem .print 0
      | .astReturn, _ => do
          generateHelper junk left
          let s ← get
          pushFuncEpilog (← derefCallee s.currentFunc)
          pushElem .ret 0
      | .astExpression, _
      | .astCondition, _ => do
          generateHelper junk left
          generateHelper junk right
          generateHelper junk middle
      | .astNumopLeaf, .type op =>
          match numopInstr op with
          | some instr => pushElem instr 0
          | none => pure ()
      | .astBoolopLeaf, .type op => pushElem (boolopToJmpInstr op) 0
      | .astBranch, _ => do
          generateHelper junk left
          let cmpInstr ← current
          -- jump if the condition is not met
          patch cmpInstr fun elem => { elem with instr := negJmpInstr elem.instr }
          generateHelper junk middle
          if right = .null then do
            setArg cmpInstr (← getSize)
          else
            pushElem .jmp 0
            let jmpInstr ← current
            setArg cmpInstr (← getSize)
            generateHelper junk right
            setArg jmpInstr (← getSize)
      | .astLoop, _ =>
          match left with
          | .mk .astForLoopHead _ init condition update => do
              generateHelper junk init
              pushElem .jmp 0
              let forwardJmpInstr ← current
              let backJmpTarget ← getSize
              generateHelper junk middle
              generateHelper junk update
              setArg forwardJmpInstr (← getSize)
              generateHelper junk condition
              setArg (← current) backJmpTarget
          | left =>
              -- a `while` loop jumps to its condition first, a `do` loop does not
              if left.type = some .astCondition then do
                pushElem .jmp 0
                let forwardJmpInstr ← current
                let backJmpTarget ← getSize
                generateHelper junk middle
                setArg forwardJmpInstr (← getSize)
                generateHelper junk left
                setArg (← current) backJmpTarget
              else do
                let backJmpTarget ← getSize
                generateHelper junk left
                generateHelper junk middle
                setArg (← current) backJmpTarget
      | .astFcall, .func name
      | .astRetFcall, .func name => do
          generateHelper junk left
          pushFcall junk name
      | .astFunction, .func name => do
          openFunc name
          pushFuncProlog (← derefCallee name)
          generateHelper junk left
          closeFunc name
      | .astHead, _ => do
          let s ← get
          match s.funcTable "main" with
          | none => modify fun s => { s with error := true }
          | some main => do
              if 0 < main.argCount then pushElem .prolog (BitVec.ofNat 32 main.argCount)
              pushArgloads 0 main.argCount
              pushCall .call 0 (some "main")
              let entryPoint ← current
              pushElem .finish 0
              generateHelper junk left
              let main ← derefCallee "main"
              patch entryPoint fun elem => { elem with arg := main.addr.getD (junk "main") }
      | _, _ => do
          generateHelper junk left
          generateHelper junk middle
          generateHelper junk right
termination_by structural node => node

/-- The static variables before the generator runs. -/
def GState.initial (funcTable : FuncTable) : GState where
  code := []
  size := 0
  currentFunc := ""
  error := false
  funcTable := funcTable

/-- `generate_code`: the list, or `none`, and the symbol tables. -/
def generateCode (junk : Junk) (funcTable : FuncTable) (head : Node) :
    EStateM.Result Abort GState (Option (List CodeElem)) :=
  let run : G (Option (List CodeElem)) := do
    generateHelper junk head
    let s ← get
    if s.error then pure none else pure (some s.code)
  run (.initial funcTable)

end Bispe
