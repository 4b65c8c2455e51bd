import KernelLowering.Program.Forest

namespace KernelLowering

def insertBefore (op anchor : OpId) : List OpId → Option (List OpId)
  | [] => none
  | x :: xs => if x = anchor then some (op :: x :: xs) else (insertBefore op anchor xs).map (x :: ·)

namespace Function

def modifyOp (f : Function) (op : OpId) (change : Operation → Operation) : Function :=
  { f with ops := f.ops.modify op.index change }

def setRegion (f : Function) (parent : Option OpId) (ops : List OpId) : Function :=
  match parent with
  | some op => f.modifyOp op fun o => { o with region := ops }
  | none => { f with body := ops }

def setParent (f : Function) (op : OpId) (parent : Option OpId) : Function :=
  f.modifyOp op fun o => { o with parent := parent }

def definedValues (op : OpId) (resultType : Option ValueType) (loops : Nat) : List Value :=
  (resultType.map fun type => Value.mk type (.result op)).toList ++
    (List.range loops).map fun i => ⟨.index, .inductionVar op i⟩

def addOp (f : Function) (kind : OpKind) (operands : List ValueId)
    (resultType : Option ValueType) (marker : Option Stage) : Function × OpId :=
  let op : OpId := ⟨f.ops.size⟩
  let loops := kind.loopRanges.length
  let first := f.values.size
  let firstVar := first + resultType.toList.length
  let record : Operation :=
    { kind, operands, marker
      result := resultType.map fun _ => ⟨first⟩
      region := []
      inductionVars := (List.range loops).map fun i => ⟨firstVar + i⟩
      parent := none
      live := true }
  ({ f with
      ops := f.ops.push record
      values := f.values ++ (definedValues op resultType loops).toArray }, op)

def detach (f : Function) (op : OpId) : Except Fault Function := do
  let parent := (← f.op op).parent
  return f.setRegion parent ((← f.region parent).filter (· ≠ op))

def placeBefore (f : Function) (op anchor : OpId) : Except Fault Function := do
  let f ← f.detach op
  let parent := (← f.op anchor).parent
  let ops ← Fault.detachedAnchor.require (insertBefore op anchor (← f.region parent))
  return (f.setRegion parent ops).setParent op parent

def placeAtEnd (f : Function) (op : OpId) (parent : Option OpId) : Except Fault Function := do
  let f ← f.detach op
  return (f.setRegion parent ((← f.region parent) ++ [op])).setParent op parent

def retire (f : Function) (op : OpId) : Function :=
  f.modifyOp op fun o => { o with live := false, region := [] }

def erase (f : Function) (op : OpId) : Except Fault Function := do
  let f ← f.detach op
  return (f.subtree op).foldl retire f

def replaceUses (f : Function) (old new : ValueId) : Function :=
  (f.users old).foldl (fun f op => f.modifyOp op (.retarget old new)) f

def replaceOp (f : Function) (op : OpId) (new : Option ValueId) : Except Fault Function := do
  match (← f.op op).result, new with
  | some old, some new => (f.replaceUses old new).erase op
  | _, _ => f.erase op

def stripMarker (f : Function) (op : OpId) : Function :=
  f.modifyOp op fun o => { o with marker := none }

theorem op?_modifyOp (f : Function) (op : OpId) (change : Operation → Operation) (other : OpId) :
    (f.modifyOp op change).op? other =
      if op = other then (f.op? other).map change else f.op? other := by
  cases op with
  | mk i =>
      cases other with
      | mk j => simp [op?, modifyOp, Array.getElem?_modify]

@[simp] theorem size_ops_modifyOp (f : Function) (op : OpId) (change : Operation → Operation) :
    (f.modifyOp op change).ops.size = f.ops.size := by
  simp [modifyOp]

theorem op?_modifyOp_of_ne {f : Function} {op other : OpId} (h : op ≠ other)
    (change : Operation → Operation) : (f.modifyOp op change).op? other = f.op? other := by
  rw [op?_modifyOp, if_neg h]

theorem op?_modifyOp_self (f : Function) (op : OpId) (change : Operation → Operation) :
    (f.modifyOp op change).op? op = (f.op? op).map change := by
  rw [op?_modifyOp, if_pos rfl]

theorem op?_addOp_of_lt {f : Function} {kind : OpKind} {operands : List ValueId}
    {type : Option ValueType} {marker : Option Stage} {op : OpId} (h : op.index < f.ops.size) :
    (f.addOp kind operands type marker).1.op? op = f.op? op := by
  simp only [addOp, op?]
  exact Array.getElem?_push_lt h |>.trans (Array.getElem?_eq_getElem h).symm

@[simp] theorem snd_addOp (f : Function) (kind : OpKind) (operands : List ValueId)
    (type : Option ValueType) (marker : Option Stage) :
    (f.addOp kind operands type marker).2 = ⟨f.ops.size⟩ := rfl

@[simp] theorem size_ops_setRegion (f : Function) (parent : Option OpId) (ops : List OpId) :
    (f.setRegion parent ops).ops.size = f.ops.size := by
  cases parent <;> simp [setRegion]

end Function

end KernelLowering

namespace KernelLowering.Function

def deadOps (f : Function) : List OpId :=
  let used := f.usedValues
  f.collect fun o => o.kind.isPure && o.result.all fun r => !used.contains r

def eraseLive (f : Function) : List OpId → Except Fault (Function × Nat)
  | [] => .ok (f, 0)
  | op :: ops => do
    if ← f.isLive op then
      let (f, count) ← (← f.erase op).eraseLive ops
      return (f, count + 1)
    else
      f.eraseLive ops

def eraseDeadRounds : Nat → Function → Except Fault (Function × Nat)
  | 0, f => .ok (f, 0)
  | rounds + 1, f => do
    match f.deadOps with
    | [] => return (f, 0)
    | dead =>
      let (f, count) ← f.eraseLive dead
      let (f, more) ← eraseDeadRounds rounds f
      return (f, count + more)

def eraseDead (f : Function) : Except Fault (Function × Nat) :=
  eraseDeadRounds (f.ops.size + 1) f

end KernelLowering.Function
