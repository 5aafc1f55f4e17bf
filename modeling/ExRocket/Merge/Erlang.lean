import ExRocket.Eetf.Term
import ExRocket.Merge.Counter

/-! The Erlang term operator, branch for branch. A position `pos.value as usize` is the
sign-extended word; `return Some(..)` is the branch that yields a term, and every other
path falls through to the existing value. -/
namespace ExRocket

open Rust

def clonedList : Option EetfTerm → List EetfTerm
  | some (.list elements) => elements
  | _ => []

def clonedBinary : Option EetfTerm → Bytes
  | some (.binary bytes) => bytes
  | _ => []

def existingInt : Option EetfTerm → Int64
  | some (.fixInteger i) => i.toInt64
  | some (.bigInteger _) => 0
  | _ => 0

variable (existingValue : Option EetfTerm) (elements : List EetfTerm)

def intAdd : Outcome (Option EetfTerm) := do
  match ← Vec.index elements 1 with
  | .fixInteger addValue =>
    let result := existingInt existingValue + addValue.toInt64
    return some (.fixInteger result.toInt32)
  | _ => return existingValue

def listAppend : Outcome (Option EetfTerm) := do
  let existingList := clonedList existingValue
  match ← Vec.index elements 1 with
  | .list appendList => return some (.list (← Vec.extend existingList appendList))
  | _ => return existingValue

def listPrepend : Outcome (Option EetfTerm) := do
  let existingList := clonedList existingValue
  match ← Vec.index elements 1 with
  | .list prependList => return some (.list (← Vec.insertEach existingList 0 prependList))
  | _ => return existingValue

def listSubtract (c : Eetf) : Outcome (Option EetfTerm) := do
  let existingList := clonedList existingValue
  match ← Vec.index elements 1 with
  | .list subtractList =>
    return some (.list (existingList.filter fun elem => !subtractList.any (c.eq · elem)))
  | _ => return existingValue

def listSet : Outcome (Option EetfTerm) := do
  let existingList := clonedList existingValue
  if elements.length ≥ 3 then
    match ← Vec.index elements 1, ← Vec.index elements 2 with
    | .fixInteger pos, newValue =>
      let index := asUsize pos
      if index < existingList.length then
        return some (.list (← Vec.set existingList index newValue))
      else return some (.list existingList)
    | _, _ => return existingValue
  else return existingValue

def listDelete : Outcome (Option EetfTerm) := do
  let existingList := clonedList existingValue
  if elements.length ≥ 2 then
    match ← Vec.index elements 1 with
    | .fixInteger pos =>
      let startIndex := asUsize pos
      if elements.length ≥ 3 then
        match ← Vec.index elements 2 with
        | .fixInteger endPos =>
          let endIndex := asUsize endPos
          if startIndex < existingList.length ∧ endIndex ≤ existingList.length then
            return some (.list (← Vec.drain existingList startIndex endIndex))
          else return some (.list existingList)
        | _ => return some (.list existingList)
      else if startIndex < existingList.length then
        return some (.list (← Vec.remove existingList startIndex))
      else return some (.list existingList)
    | _ => return existingValue
  else return existingValue

def listInsert : Outcome (Option EetfTerm) := do
  let existingList := clonedList existingValue
  if elements.length ≥ 3 then
    match ← Vec.index elements 1, ← Vec.index elements 2 with
    | .fixInteger pos, .list insertList =>
      let index := asUsize pos
      if index ≤ existingList.length then
        return some (.list (← Vec.insertEach existingList index insertList))
      else return some (.list existingList)
    | _, _ => return existingValue
  else return existingValue

def binaryAppend : Outcome (Option EetfTerm) := do
  let existingBinary := clonedBinary existingValue
  match ← Vec.index elements 1 with
  | .binary appendBinary => return some (.binary (← Vec.extend existingBinary appendBinary))
  | _ => return existingValue

def binaryErase : Outcome (Option EetfTerm) := do
  let existingBinary := clonedBinary existingValue
  if elements.length ≥ 3 then
    match ← Vec.index elements 1, ← Vec.index elements 2 with
    | .fixInteger pos, .fixInteger count =>
      let startPos := asUsize pos
      let eraseCount := asUsize count
      let endPos := usizeAdd startPos eraseCount
      if startPos ≤ existingBinary.length ∧ endPos ≤ existingBinary.length then
        return some (.binary (← Vec.drain existingBinary startPos endPos))
      else return some (.binary existingBinary)
    | _, _ => return existingValue
  else return existingValue

def binaryInsert : Outcome (Option EetfTerm) := do
  let existingBinary := clonedBinary existingValue
  if elements.length ≥ 3 then
    match ← Vec.index elements 1, ← Vec.index elements 2 with
    | .fixInteger pos, .binary insertBinary =>
      let insertPos := asUsize pos
      if insertPos ≤ existingBinary.length then
        return some (.binary (← Vec.insertEach existingBinary insertPos insertBinary))
      else return some (.binary existingBinary)
    | _, _ => return existingValue
  else return existingValue

def binaryReplace : Outcome (Option EetfTerm) := do
  let existingBinary := clonedBinary existingValue
  if elements.length ≥ 4 then
    match ← Vec.index elements 1, ← Vec.index elements 2, ← Vec.index elements 3 with
    | .fixInteger pos, .fixInteger count, .binary replaceBinary =>
      let startPos := asUsize pos
      let replaceCount := asUsize count
      let endPos := usizeAdd startPos replaceCount
      if startPos ≤ existingBinary.length ∧ endPos ≤ existingBinary.length then
        let drained ← Vec.drain existingBinary startPos endPos
        return some (.binary (← Vec.insertEach drained startPos replaceBinary))
      else return some (.binary existingBinary)
    | _, _, _ => return existingValue
  else return existingValue

/-- The operand is taken apart as a tuple (operation atom, arguments). -/
def processEetfMergeOperation (c : Eetf) (existingValue : Option EetfTerm)
    (operand : EetfTerm) : Outcome (Option EetfTerm) :=
  match operand with
  | .tuple elements =>
    if elements.length ≥ 2 then do
      match ← Vec.index elements 0 with
      | .atom opAtom =>
        match opAtom with
        | "int_add" => intAdd existingValue elements
        | "list_append" => listAppend existingValue elements
        | "list_prepend" => listPrepend existingValue elements
        | "list_subtract" => listSubtract existingValue elements c
        | "list_set" => listSet existingValue elements
        | "list_delete" => listDelete existingValue elements
        | "list_insert" => listInsert existingValue elements
        | "binary_append" => binaryAppend existingValue elements
        | "binary_erase" => binaryErase existingValue elements
        | "binary_insert" => binaryInsert existingValue elements
        | "binary_replace" => binaryReplace existingValue elements
        | _ => return existingValue
      | _ => return existingValue
    else return existingValue
  | _ => return existingValue

def etfLoop (c : Eetf) : List Bytes → Option EetfTerm → Bool → Outcome (Option EetfTerm × Bool)
  | [], currentEetfTerm, isEtfProcessing => return (currentEetfTerm, isEtfProcessing)
  | operandBytes :: operands, currentEetfTerm, isEtfProcessing =>
    match c.decode operandBytes with
    | some operandEetfTerm => do
      let currentEetfTerm ← processEetfMergeOperation c currentEetfTerm operandEetfTerm
      etfLoop c operands currentEetfTerm true
    | none => etfLoop c operands currentEetfTerm isEtfProcessing

def erlangMerge (c : Eetf) (_key : Bytes) (existingVal : Option Bytes)
    (operands : List Bytes) : Outcome (Option Bytes) := do
  let currentEetfTerm := existingVal.bind c.decode
  let (currentEetfTerm, isEtfProcessing) ← etfLoop c operands currentEetfTerm false
  let fallback := some (stringSum existingVal operands)
  if isEtfProcessing then
    match currentEetfTerm with
    | some resultEetfTerm =>
      match c.encode resultEetfTerm with
      | some buffer => return some buffer
      | none => return fallback
    | none => return fallback
  else return fallback

end ExRocket
