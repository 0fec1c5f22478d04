import Haml.Node.Reader
import Haml.Proofs.Reading.Motion

/-!
The loops of the readers as repeated turns. A turn is what a loop does between two positions; the
loop repeats it until it ends with a result.
-/
namespace Haml

namespace Reader

variable {α β : Type}

@[simp] theorem reject_bind (fault : Fault) (f : α → Reader β) :
    (reject fault >>= f) = reject fault := rfl

/-- The turn of a loop that gathers what its turns read; `acc` holds what was read, last first. -/
def gather (turn : Reader (Option α)) (acc : List α) : Reader (List α ⊕ List α) := do
  match ← turn with
  | none => return .inr acc.reverse
  | some a => return .inl (a :: acc)

theorem iterate_gather {turn : Reader (Option α)} {loop : Text → Reader (List α)}
    (hnil : loop [] = throw .stalled)
    (hcons : ∀ x steps, loop (x :: steps) = do
      match ← turn with
      | none => return []
      | some a => return a :: (← loop steps))
    (steps : Text) (acc : List α) :
    iterate (gather turn) steps acc = do return acc.reverse ++ (← loop steps) := by
  induction steps generalizing acc with
  | nil =>
    rw [hnil]
    rfl
  | cons x steps ih =>
    simp only [iterate, gather, hcons, bind_assoc]
    refine bind_congr fun o => ?_
    cases o with
    | none => simp
    | some a =>
      simp only [pure_bind, bind_assoc, ih, List.reverse_cons, List.append_assoc,
        List.singleton_append]

/-- A loop that gathers what its turns read. -/
theorem eq_iterate_gather {turn : Reader (Option α)} {loop : Text → Reader (List α)}
    (hnil : loop [] = throw .stalled)
    (hcons : ∀ x steps, loop (x :: steps) = do
      match ← turn with
      | none => return []
      | some a => return a :: (← loop steps))
    (steps : Text) : loop steps = iterate (gather turn) steps [] := by
  rw [iterate_gather hnil hcons]
  simp

end Reader

namespace Attribute

open Reader (iterate gather)

variable (s : Settings) (block : Text → Except Failure Text)

def itemTurn (close : Char) : Reader (Option Scalar) := do
  let _ ← Reader.indentation
  if (← Reader.peek) = close then return none
  let v ← scalar s
  let _ ← Reader.indentation
  if (← Reader.peek) ≠ close then
    let _ ← Reader.symbol [[',']]
  return some v

theorem items_eq (close : Char) (steps : Text) :
    items s close steps = iterate (gather (itemTurn s close)) steps [] := by
  refine Reader.eq_iterate_gather rfl (fun x steps => ?_) steps
  simp only [items, itemTurn, bind_assoc]
  refine bind_congr fun _ => bind_congr fun y => ?_
  split
  · simp
  · simp only [bind_assoc]
    refine bind_congr fun v => bind_congr fun _ => bind_congr fun z => ?_
    split <;> simp

def blockTurn (margin : Option Nat) : Reader (Option Text) := do
  if ← Reader.atEnd then return none
  match ← Reader.peekMargin, margin with
  | some _, none => throw .noMargin
  | some m, some least =>
    if m < least then return none
    return some (blankToEmpty (← Reader.line))
  | none, _ => return some (blankToEmpty (← Reader.line))

theorem blockLines_cons (margin : Option Nat) (x : Char) (steps : Text) :
    blockLines margin (x :: steps) = do
      match ← blockTurn margin with
      | none => return []
      | some l => return l :: (← blockLines margin steps) := by
  simp only [blockLines, blockTurn, bind_assoc]
  refine bind_congr fun b => ?_
  split
  · simp
  · simp only [bind_assoc]
    refine bind_congr fun m => ?_
    cases m with
    | none => simp
    | some m =>
      cases margin with
      | none => rfl
      | some least =>
        simp only []
        split <;> simp

theorem blockLines_eq (margin : Option Nat) (steps : Text) :
    blockLines margin steps = iterate (gather (blockTurn margin)) steps [] := by
  refine Reader.eq_iterate_gather rfl (fun x steps => ?_) steps
  rw [blockLines_cons]
  refine bind_congr fun o => ?_
  cases o <;> rfl

def parenTurn (d : Attributes) : Reader (Attributes ⊕ Attributes) := do
  let _ ← Reader.gap
  if ← Reader.atEnd then Reader.reject .unterminatedDictionary
  if (← Reader.peek) = ')' then
    Reader.skip
    return .inr d
  let d ← record d (← parenEntry s block)
  let _ ← Reader.indentation
  if (← Reader.peek) = ',' then Reader.reject (.unexpected ',')
  return .inl d

theorem parenEntries_eq (steps : Text) (d : Attributes) :
    parenEntries s block steps d = iterate (parenTurn s block) steps d := by
  induction steps generalizing d with
  | nil => rfl
  | cons x steps ih =>
    simp only [parenEntries, iterate, parenTurn, bind_assoc]
    refine bind_congr fun _ => bind_congr fun b => ?_
    cases b with
    | true => simp
    | false =>
      simp only [Bool.false_eq_true, if_false, bind_assoc]
      refine bind_congr fun y => ?_
      split
      · simp
      · simp only [bind_assoc]
        refine bind_congr fun e => bind_congr fun d => bind_congr fun _ => bind_congr fun z => ?_
        split <;> simp [ih]

def bracedTurn (d : Attributes) : Reader (Attributes ⊕ Attributes) := do
  let _ ← Reader.gap
  if ← Reader.atEnd then Reader.reject .unterminatedDictionary
  if (← Reader.peek) = '}' then
    Reader.skip
    return .inr d
  let d ← record d (← bracedEntry s block)
  let _ ← Reader.indentation
  let c ← Reader.peek
  if c ≠ '}' ∧ c ≠ '\n' then
    let _ ← Reader.symbol [[',']]
  return .inl d

theorem bracedEntries_eq (steps : Text) (d : Attributes) :
    bracedEntries s block steps d = iterate (bracedTurn s block) steps d := by
  induction steps generalizing d with
  | nil => rfl
  | cons x steps ih =>
    simp only [bracedEntries, iterate, bracedTurn, bind_assoc]
    refine bind_congr fun _ => bind_congr fun b => ?_
    cases b with
    | true => simp
    | false =>
      simp only [Bool.false_eq_true, if_false, bind_assoc]
      refine bind_congr fun y => ?_
      split
      · simp
      · simp only [bind_assoc]
        refine bind_congr fun e => bind_congr fun d => bind_congr fun _ => bind_congr fun z => ?_
        split <;> simp [ih]

/-- A turn of the loop over the entries: the end of the dictionary, or an entry and what separates
it from the next one. -/
def recordTurn (entry : Reader (Text × Value)) (close : Char)
    (separate : Attributes → Char → Reader (Attributes ⊕ Attributes)) (d : Attributes) :
    Reader (Attributes ⊕ Attributes) := do
  let _ ← Reader.gap
  if ← Reader.atEnd then Reader.reject .unterminatedDictionary
  if (← Reader.peek) = close then
    Reader.skip
    return .inr d
  let d ← record d (← entry)
  let _ ← Reader.indentation
  separate d (← Reader.peek)

theorem parenTurn_eq (d : Attributes) :
    parenTurn s block d = recordTurn (parenEntry s block) ')' (fun d x => do
      if x = ',' then Reader.reject (.unexpected ',')
      return .inl d) d := rfl

theorem bracedTurn_eq (d : Attributes) :
    bracedTurn s block d = recordTurn (bracedEntry s block) '}' (fun d x => do
      if x ≠ '}' ∧ x ≠ '\n' then
        let _ ← Reader.symbol [[',']]
      return .inl d) d := rfl

end Attribute

namespace Element

open Attribute (isDash)
open Reader (iterate)

variable (s : Settings) (block : Text → Except Failure Text)

def shortcutTurn (r : Option Text × List Scalar) :
    Reader ((Option Text × List Scalar) ⊕ (Option Text × List Scalar)) := do
  if ← Reader.accept '#' then
    return .inl (some (← Reader.word isDash), r.2)
  else if ← Reader.accept '.' then
    return .inl (r.1, r.2 ++ [.text (← Reader.word isDash)])
  else
    return .inr r

theorem shortcuts_eq (steps : Text) (id : Option Text) (classes : List Scalar) :
    shortcuts steps id classes = iterate shortcutTurn steps (id, classes) := by
  induction steps generalizing id classes with
  | nil => rfl
  | cons x steps ih =>
    simp only [shortcuts, iterate, shortcutTurn, bind_assoc]
    refine bind_congr fun b => ?_
    split
    · simp [ih]
    · simp only [bind_assoc]
      refine bind_congr fun b => ?_
      split <;> simp [ih]

def dictionaryTurn (d : Attributes) : Reader (Attributes ⊕ Attributes) := do
  match ← Reader.peek? with
  | some '{' | some '(' => return .inl (d.update (← Attribute.dictionary s block))
  | _ => return .inr d

theorem dictionaries_eq (steps : Text) (d : Attributes) :
    dictionaries s block steps d = iterate (dictionaryTurn s block) steps d := by
  induction steps generalizing d with
  | nil => rfl
  | cons x steps ih =>
    simp only [dictionaries, iterate, dictionaryTurn, bind_assoc]
    refine bind_congr fun o => ?_
    split <;> simp [ih]

end Element

namespace Node

open Reader (iterate gather)

variable (p : Profile) (block : Text → Except Failure Text)

def deeperTurn (depth : Nat) : Reader (Option Text) := do
  if ← Reader.atEnd then return none
  match ← Reader.peekMargin with
  | some m =>
    if m ≤ depth then return none
    return some (Attribute.blankToEmpty (← Reader.line))
  | none => return some (Attribute.blankToEmpty (← Reader.line))

theorem deeperLines_eq (depth : Nat) (steps : Text) :
    deeperLines depth steps = iterate (gather (deeperTurn depth)) steps [] := by
  refine Reader.eq_iterate_gather rfl (fun x steps => ?_) steps
  simp only [deeperLines, deeperTurn, bind_assoc]
  refine bind_congr fun b => ?_
  split
  · simp
  · simp only [bind_assoc]
    refine bind_congr fun m => ?_
    cases m with
    | none => simp
    | some m =>
      simp only []
      split <;> simp

def blankTurn (n : Nat) : Reader (Nat ⊕ (Nat × Text)) := do
  let indent ← Reader.indentation
  if ← Reader.accept '\n' then
    return .inl (n + 1)
  else
    return .inr (n, uniform indent)

theorem blankLines_eq (steps : Text) (n : Nat) :
    blankLines steps n = iterate blankTurn steps n := by
  induction steps generalizing n with
  | nil => rfl
  | cons x steps ih =>
    simp only [blankLines, iterate, blankTurn, bind_assoc]
    refine bind_congr fun _ => bind_congr fun b => ?_
    split <;> simp [ih]

def nodeTurn (read : List Node) : Reader (List Node ⊕ List Node) := do
  let (blanks, found) ← next p block
  match found with
  | none => return .inr (addNewlines blanks read).reverse
  | some n => return .inl (n :: addNewlines blanks read)

theorem all_eq (steps : Text) (read : List Node) :
    all p block steps read = iterate (nodeTurn p block) steps read := by
  induction steps generalizing read with
  | nil => rfl
  | cons x steps ih =>
    simp only [all, iterate, nodeTurn, bind_assoc]
    refine bind_congr fun r => ?_
    obtain ⟨blanks, found⟩ := r
    cases found with
    | none => simp
    | some n => simp [ih]

end Node

end Haml
