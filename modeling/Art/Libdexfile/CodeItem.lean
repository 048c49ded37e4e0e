import Art.Libdexfile.DexFile
import Art.Libdexfile.DexFileVerifier

/-! `CheckIntraCodeItem`: the header of a code item, its try items and the handlers behind them. -/

namespace Art.DexFileVerifier

open Lib Lib.Scan Dex

/-- The parts of a code item that its accessor gives; the instructions follow the header of 16 bytes. -/
structure CodeItem where
  offset : Nat
  registersSize : Nat
  insSize : Nat
  outsSize : Nat
  triesSize : Nat
  insnsSizeInCodeUnits : Nat

namespace CodeItem

variable (code : CodeItem)

def insns : Nat := code.offset + 16

def insnsEnd : Nat := code.insns + 2 * code.insnsSizeInCodeUnits

/-- `GetTryItems`: the end of the instructions, rounded up. -/
def tryItems : Nat := (code.insnsEnd + 3) / 4 * 4

def catchHandlerData : Nat := code.tryItems + 8 * code.triesSize

end CodeItem

section Values

variable (c : Container)

def uint16At (p : Nat) : Nat := (c.memory p).toNat + 2 ^ 8 * (c.memory (p + 1)).toNat

def uint32At (p : Nat) : Nat := uint16At c p + 2 ^ 16 * uint16At c (p + 2)

def tryItemAt (p : Nat) : TryItem where
  startAddr := uint32At c p
  insnCount := uint16At c (p + 4)
  handlerOff := uint16At c (p + 6)

def codeItemAt (p : Nat) : CodeItem where
  offset := p
  registersSize := uint16At c p
  insSize := uint16At c (p + 2)
  outsSize := uint16At c (p + 4)
  triesSize := uint16At c (p + 6)
  insnsSizeInCodeUnits := uint32At c (p + 12)

end Values

section Checks

variable (c : Container)

def readValue {α : Type} (value : Nat → α) (size p : Nat) : Scan α := fun s =>
  (.done (value p), { s with reads := (List.range' p size).reverse ++ s.reads })

def checkTypedHandler (code : CodeItem) : Scan Unit := do
  let typeIdx ← decodeUnsignedCheckedFrom c
  require (checkIndex typeIdx c.typeIdsSize "handler type_idx")
  let addr ← decodeUnsignedCheckedFrom c
  if addr.toNat ≥ code.insnsSizeInCodeUnits then error "Invalid handler addr"

def checkCatchAll (code : CodeItem) : Scan Unit := do
  let addr ← decodeUnsignedCheckedFrom c
  if addr.toNat ≥ code.insnsSizeInCodeUnits then error "Invalid handler catch_all_addr"

/-- `CheckAndGetHandlerOffsets`, with the offsets it stores. -/
def checkAndGetHandlerOffsets (code : CodeItem) : Nat → Scan (List Nat)
  | 0 => return []
  | n + 1 => do
    let ptr ← getPtr
    let size ← decodeSignedCheckedFrom c
    if size < -65536 ∨ size > 65536 then error "Invalid exception handler size"
    else do
      repeatTimes (checkTypedHandler c code) size.natAbs
      if size ≤ 0 then checkCatchAll c code
      let handlerOffsets ← checkAndGetHandlerOffsets code n
      return (ptr - code.catchHandlerData) % 2 ^ 32 :: handlerOffsets

def checkTryItems (code : CodeItem) (handlerOffsets : List Nat) : Nat → Nat → Nat → Scan Unit
  | 0, _, _ => return ()
  | tryItemsSize + 1, ptr, lastAddr => do
    let tryItem ← readValue (tryItemAt c) 8 ptr
    if tryItem.startAddr < lastAddr then error "Out-of_order try_item with start_addr"
    else if tryItem.startAddr ≥ code.insnsSizeInCodeUnits then error "Invalid try_item start_addr"
    else if tryItem.handlerOff ∉ handlerOffsets then error "Bogus handler offset"
    else
      let lastAddr := (tryItem.startAddr + tryItem.insnCount) % 2 ^ 32
      if lastAddr > code.insnsSizeInCodeUnits then error "Invalid try_item insn_count"
      else checkTryItems code handlerOffsets tryItemsSize (ptr + 8) lastAddr

def checkSpacer (code : CodeItem) : Scan Unit :=
  if code.insnsEnd % 4 ≠ 0 then do
    let spacer ← readValue (uint16At c) 2 code.insnsEnd
    if spacer ≠ 0 then error "Non-zero padding"
  else return ()

def checkTries (code : CodeItem) : Scan Unit := do
  require (checkListSize c code.tryItems code.triesSize 8 "try_items size")
  checkSpacer c code
  setPtr code.catchHandlerData
  let handlersSize ← decodeUnsignedCheckedFrom c
  if handlersSize = 0 ∨ handlersSize.toNat ≥ 65536 then error "Invalid handlers_size"
  else do
    let handlerOffsets ← checkAndGetHandlerOffsets c code handlersSize.toNat
    checkTryItems c code handlerOffsets code.triesSize code.tryItems 0

def checkIntraCodeItem : Scan Unit := do
  let codeItem ← getPtr
  require (checkListSize c codeItem 1 16 "code")
  let code ← readValue (codeItemAt c) 16 codeItem
  if code.insSize > code.registersSize then error "ins_size > registers_size"
  else if code.outsSize > 5 ∧ code.outsSize > code.registersSize then error "outs_size > registers_size"
  else do
    require (checkListSize c code.insns code.insnsSizeInCodeUnits 2 "insns size")
    if code.triesSize = 0 then setPtr code.insnsEnd else checkTries c code

end Checks

end Art.DexFileVerifier
