import BlockMachine.Block

/-!
# Equality of blocks

Two blocks are equal when they are of one kind and hold the same. Stacks are compared as rooted
graphs: walking both in step, a stack of one side is always met together with the same stack of the
other side. Names of stacks do not count.

* `Block.plainEquals` — blocks that hold no stack;
* `Heap.matchStacks`, `Heap.matchBlocks` — the walk, which collects the pairs of stacks met so far;
* `Heap.stackEquals`, `Heap.equals` — the answers.
-/

namespace BlockMachine

/-- Equality of blocks that hold no stack. Numbers compare fuzzily, and errors are all alike. -/
def Block.plainEquals : Block → Block → Bool
  | .error _, .error _ => true
  | .number a _, .number b _ => a.fuzzyEq b
  | .boolean a, .boolean b => a == b
  | .string a, .string b => a == b
  | .memoryReference a, .memoryReference b => a == b
  | .memory a, .memory b => a == b
  | .randomInt a _, .randomInt b _ => a.fuzzyEq b
  | .randomReal a _, .randomReal b _ => a.fuzzyEq b
  | .randomBool a, .randomBool b => a == b
  | .operator a, .operator b => a == b
  | .assign a, .assign b => a == b
  | .fetch a, .fetch b => a == b
  | .getSymbol a, .getSymbol b => a == b
  | .setSymbol a, .setSymbol b => a == b
  | .color a, .color b => a == b
  | .extension a, .extension b =>
    a.typeId == b.typeId && a.typeName == b.typeName && a.written == b.written
  | _, _ => false

namespace Heap

/-- The pairs of stacks that a walk has met, the latest first. -/
abbrev Trail := List (Loc × Loc)

/-- One pair of blocks of the walk; `enter` walks a pair of stacks. -/
def matchBlock (enter : Trail → Loc → Loc → Option Trail) (t : Trail) (x y : Block) :
    Option Trail :=
  match x.stack?, y.stack? with
  | some a, some b => enter t a b
  | _, _ =>
    match x, y with
    | .code _ (some a), .code _ (some b) => enter t a b
    | .code m none, .code n none => if m == n then some t else none
    | _, _ => if x.plainEquals y then some t else none

/-- Two lists of blocks, position by position. -/
def matchBlocks (enter : Trail → Loc → Loc → Option Trail) :
    Trail → List Block → List Block → Option Trail
  | t, [], [] => some t
  | t, x :: xs, y :: ys => (matchBlock enter t x y).bind fun t => matchBlocks enter t xs ys
  | _, _, _ => none

/-- Walks two stacks in step. A pair that was met before is done; a stack that was met with another
partner ends the walk. -/
def matchStacks (h : Heap) : Nat → Trail → Loc → Loc → Option Trail
  | 0, _, _, _ => none
  | fuel + 1, t, a, b =>
    if t.contains (a, b) then some t
    else if t.any fun p => p.1 == a || p.2 == b then none
    else matchBlocks (matchStacks h fuel) ((a, b) :: t) (h.blocks a) (h.blocks b)

/-- Equality of stacks as rooted graphs. A walk enters each stack once, so it is never longer than
the heap. -/
def stackEquals (h : Heap) (a b : Loc) : Bool :=
  (matchStacks h (h.size + 1) [] a b).isSome

/-- Equality of blocks. -/
def equals (h : Heap) (x y : Block) : Bool :=
  (matchBlock (matchStacks h (h.size + 1)) [] x y).isSome

end Heap

end BlockMachine
