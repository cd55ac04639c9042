import Mathlib

/-!
# The table of factories (`llvm_dsp_aux.cpp`, `smartpointer.h`)

The factories that are compiled are kept in a table, under smart pointers that count the references
to a factory and destroy it with the last one. A pointer is an address, and what LLVM does is
reduced to whether it succeeds.
-/

namespace Faust.LLVM

/-- The null pointer. -/
def null : ℕ := 0

/-- The values of an `unsigned`. -/
def unsignedSize : ℕ := 2 ^ 32

/-- `class llvm_dsp_factory`. -/
structure Factory where
  refCount : ℕ
  fSHAKey : String

/-- The objects that have not been destroyed, by address, and `gFactoryTable`. An instance is given
by its `fDSPFactory`, and the entries of the table are in the order of their pointers. -/
structure Memory where
  factory : ℕ → Option Factory
  instances : ℕ → Option ℕ
  gFactoryTable : List (ℕ × List ℕ)

/-- Why a call does not return. -/
inductive Fault
  /-- A destroyed object is accessed. -/
  | destroyed
  /-- `assert (fSmartPtr != 0)`. -/
  | null
  /-- `assert(refCount != 0)`. -/
  | overflow
  /-- `assert(it != llvm_dsp_factory::gFactoryTable.end())`. -/
  | notInTable
deriving DecidableEq

/-- Computations on the memory. -/
abbrev M := StateT Memory (Except Fault)

/-! ## Smart pointers -/

/-- The factory at this address. -/
def access (p : ℕ) : M Factory := do
  match (← get).factory p with
  | some f => return f
  | none => throw .destroyed

/-- The object at this address changes. There is none after a `delete`. -/
def Memory.setFactory (p : ℕ) (f : Option Factory) (m : Memory) : Memory :=
  { m with factory := Function.update m.factory p f }

/-- `addReference`. -/
def addReference (p : ℕ) : M Unit := do
  let f ← access p
  let refCount := (f.refCount + 1) % unsignedSize
  if refCount = 0 then throw .overflow
  modify (Memory.setFactory p (some { f with refCount }))

/-- `removeReference`. -/
def removeReference (p : ℕ) : M Unit := do
  let f ← access p
  let refCount := (f.refCount + (unsignedSize - 1)) % unsignedSize
  if refCount = 0 then modify (Memory.setFactory p none)
  else modify (Memory.setFactory p (some { f with refCount }))

/-- `SMARTP(T* rawptr)`. -/
def hold (p : ℕ) : M Unit := if p = null then return () else addReference p

/-- `~SMARTP()`. -/
def release (p : ℕ) : M Unit := if p = null then return () else removeReference p

/-- A smart pointer that lives as long as `body` runs. -/
def smartp {α : Type} (p : ℕ) (body : M α) : M α := do
  hold p
  let a ← body
  release p
  return a

/-! ## The table -/

/-- The entry of a `map` is set. -/
def setEntry (p : ℕ) (dsps : List ℕ) : List (ℕ × List ℕ) → List (ℕ × List ℕ)
  | [] => [(p, dsps)]
  | (q, l) :: t =>
    if p < q then (p, dsps) :: (q, l) :: t
    else if p = q then (p, dsps) :: t
    else (q, l) :: setEntry p dsps t

/-- `gFactoryTable.find(factory)`, with the smart pointer that the key is converted to. -/
def find (p : ℕ) : M (Option (List ℕ)) := smartp p do return (← get).gFactoryTable.lookup p

/-- `gFactoryTable[factory] = list<llvm_dsp_aux*>()`. A new entry holds a copy of the key. -/
def addEntry (p : ℕ) : M Unit := smartp p do
  let t := (← get).gFactoryTable
  if (t.lookup p).isNone then hold p
  modify fun m => { m with gFactoryTable := setEntry p [] t }

/-- `gFactoryTable.erase(factory)`. -/
def erase (p : ℕ) : M Unit := smartp p do
  let t := (← get).gFactoryTable
  if (t.lookup p).isSome then
    modify fun m => { m with gFactoryTable := t.filter fun e => e.1 ≠ p }
    release p

/-- The instances of an entry change. -/
def updateEntry (p : ℕ) (f : List ℕ → List ℕ) : M Unit :=
  modify fun m =>
    { m with gFactoryTable := m.gFactoryTable.map fun e => if e.1 = p then (e.1, f e.2) else e }

/-- The loop of `getFactory`. -/
def getFactoryIn (sha_key : String) : List (ℕ × List ℕ) → M (Option ℕ)
  | [] => return none
  | (p, _) :: t => do
    if p = null then throw .null
    let f ← access p
    if f.fSHAKey = sha_key then return some p else getFactoryIn sha_key t

/-- `getFactory`. -/
def getFactory (sha_key : String) : M (Option ℕ) := do
  getFactoryIn sha_key (← get).gFactoryTable

/-! ## Factories -/

/-- A new factory at this address. -/
def newFactory (sha_key : String) (p : ℕ) : M Unit :=
  modify (Memory.setFactory p (some ⟨0, sha_key⟩))

/-- `CheckDSPFactory`. The JIT may fail to start. -/
def checkDSPFactory (jit : Bool) (p : ℕ) : M ℕ := do
  if jit then return p
  else
    modify (Memory.setFactory p none)
    return null

/-- The factory of the table is returned once more. -/
def share (p : ℕ) : M ℕ := do
  smartp p (addReference p)
  return p

/-- A factory is made and put in the table when there is a module and the JIT starts. -/
def newEntry (sha_key : String) (module jit : Bool) (p : ℕ) : M ℕ := do
  if module then
    newFactory sha_key p
    let factory ← checkDSPFactory jit p
    if factory ≠ null then
      addEntry factory
      return factory
    else return null
  else return null

/-- `createDSPFactory`. -/
def createDSPFactory (jit : Bool) (p : ℕ) : M ℕ := do
  newFactory "" p
  checkDSPFactory jit p

/-- `createDSPFactoryFromString`. There is no key when the program cannot be expanded. -/
def createDSPFactoryFromString (sha_key : Option String) (jit : Bool) (p : ℕ) : M ℕ := do
  match sha_key with
  | none => return null
  | some sha_key =>
    match ← getFactory sha_key with
    | some q => share q
    | none => newEntry sha_key true jit p

/-- `readDSPFactoryFromBitcodeAux`. -/
def readDSPFactoryFromBitcodeAux (sha_key : String) (module jit : Bool) (p : ℕ) : M ℕ := do
  match ← getFactory sha_key with
  | some q => share q
  | none => newEntry sha_key module jit p

/-- `readDSPFactoryFromIRAux`. -/
def readDSPFactoryFromIRAux (sha_key : String) (module jit : Bool) (p : ℕ) : M ℕ := do
  match ← getFactory sha_key with
  | some q => share q
  | none => newEntry sha_key module jit p

/-- `readDSPFactoryFromMachineAux`. The pointer is put in the table whatever it is. -/
def readDSPFactoryFromMachineAux (sha_key : String) (jit : Bool) (p : ℕ) : M ℕ := do
  match ← getFactory sha_key with
  | some q => share q
  | none =>
    newFactory sha_key p
    let factory ← checkDSPFactory jit p
    addEntry factory
    return factory

/-- `createDSPFactoryFromSHAKey`. No reference is added. -/
def createDSPFactoryFromSHAKey (sha_key : String) : M ℕ := do
  match ← getFactory sha_key with
  | some q => smartp q (return q)
  | none => return null

/-- `deleteDSPFactory`. -/
def deleteDSPFactory (p : ℕ) : M Unit := do
  if (← find p).isSome then
    smartp p do
      -- the smart pointer on the stack and the one of the table
      if (← access p).refCount = 2 then erase p else removeReference p

/-! ## Instances -/

/-- `createDSPInstance`, with the address of the new instance. -/
def createDSPInstance (p i : ℕ) : M ℕ := do
  if (← find p).isSome then
    let _ ← access p
    modify fun m => { m with instances := Function.update m.instances i (some p) }
    updateEntry p (· ++ [i])
    return i
  else return null

/-- `deleteDSPInstance`. The function that deletes the DSP is a field of its factory. -/
def deleteDSPInstance (i : ℕ) : M Unit := do
  if i ≠ null then
    match (← get).instances i with
    | none => throw .destroyed
    | some p =>
      if (← find p).isNone then throw .notInTable
      updateEntry p (·.filter (· ≠ i))
      let _ ← access p
      modify fun m => { m with instances := Function.update m.instances i none }

/-! ## Sequences of calls -/

/-- The calls of the interface. What `new` returns and what LLVM does is given with a call. -/
inductive Call
  | createDSPFactory (jit : Bool) (p : ℕ)
  | createDSPFactoryFromString (sha_key : Option String) (jit : Bool) (p : ℕ)
  | readDSPFactoryFromBitcode (sha_key : String) (module jit : Bool) (p : ℕ)
  | readDSPFactoryFromIR (sha_key : String) (module jit : Bool) (p : ℕ)
  | readDSPFactoryFromMachine (sha_key : String) (jit : Bool) (p : ℕ)
  | createDSPFactoryFromSHAKey (sha_key : String)
  | deleteDSPFactory (p : ℕ)
  | createDSPInstance (p i : ℕ)
  | deleteDSPInstance (i : ℕ)

/-- The memory, and what the caller has received and not given back: the handles, and the instances
with their factories. An orphan is an instance whose factory has had no handle since. -/
structure Client where
  memory : Memory
  handles : List ℕ
  instances : List (ℕ × ℕ)
  orphans : List ℕ

/-- Before the first call. -/
def Client.start : Client := ⟨⟨fun _ => none, fun _ => none, []⟩, [], [], []⟩

/-- An address that `new` may return for a factory. -/
def Memory.Free (m : Memory) (p : ℕ) : Prop := p ≠ null ∧ m.factory p = none

/-- What the caller passes is null or has not been given back, and `new` returns free addresses. -/
def Client.Allows (s : Client) : Call → Prop
  | .createDSPFactory _ p | .createDSPFactoryFromString _ _ p => s.memory.Free p
  | .readDSPFactoryFromBitcode _ _ _ p | .readDSPFactoryFromIR _ _ _ p => s.memory.Free p
  | .readDSPFactoryFromMachine _ _ p => s.memory.Free p
  | .createDSPFactoryFromSHAKey _ => True
  | .deleteDSPFactory p => p = null ∨ p ∈ s.handles
  | .createDSPInstance p i =>
    (p = null ∨ p ∈ s.handles) ∧ i ≠ null ∧ s.memory.instances i = none
  | .deleteDSPInstance i => i = null ∨ i ∈ s.instances.map Prod.fst

/-- The handle that a call returns is kept, unless it is null. -/
def Client.receive (s : Client) (r : ℕ × Memory) : Client :=
  { s with memory := r.2, handles := if r.1 = null then s.handles else r.1 :: s.handles }

/-- The handle has been given back. -/
def Client.giveBack (s : Client) (p : ℕ) : Client :=
  let handles := s.handles.erase p
  { s with
    handles
    orphans :=
      if p ∈ handles then s.orphans
      else s.orphans ++ (s.instances.filter fun e => e.2 = p).map Prod.fst }

/-- A call. -/
def Client.call (s : Client) : Call → Except Fault Client
  | .createDSPFactory jit p => s.receive <$> createDSPFactory jit p s.memory
  | .createDSPFactoryFromString sha_key jit p =>
    s.receive <$> createDSPFactoryFromString sha_key jit p s.memory
  | .readDSPFactoryFromBitcode sha_key module jit p =>
    s.receive <$> readDSPFactoryFromBitcodeAux sha_key module jit p s.memory
  | .readDSPFactoryFromIR sha_key module jit p =>
    s.receive <$> readDSPFactoryFromIRAux sha_key module jit p s.memory
  | .readDSPFactoryFromMachine sha_key jit p =>
    s.receive <$> readDSPFactoryFromMachineAux sha_key jit p s.memory
  | .createDSPFactoryFromSHAKey sha_key =>
    s.receive <$> createDSPFactoryFromSHAKey sha_key s.memory
  | .deleteDSPFactory p => do
    let (_, m) ← deleteDSPFactory p s.memory
    return { s.giveBack p with memory := m }
  | .createDSPInstance p i => do
    let (i, m) ← createDSPInstance p i s.memory
    return { s with
      memory := m
      instances := if i = null then s.instances else (i, p) :: s.instances }
  | .deleteDSPInstance i => do
    let (_, m) ← deleteDSPInstance i s.memory
    return { s with
      memory := m
      instances := s.instances.filter fun e => e.1 ≠ i
      orphans := s.orphans.filter fun j => j ≠ i }

/-- What is reached by calls that meet a condition. -/
inductive Runs (Meets : Client → Call → Prop) : Client → Prop
  | start : Runs Meets .start
  | call {s s' : Client} {c : Call} (h : Runs Meets s) (ha : s.Allows c) (hm : Meets s c)
      (hs : s.call c = .ok s') : Runs Meets s'

/-! ## What is asked -/

/-- The references to the factories are balanced. -/
structure Balanced (s : Client) : Prop where
  sha_nodup : (s.memory.gFactoryTable.map fun e =>
    (s.memory.factory e.1).map Factory.fSHAKey).Nodup
  not_null : ∀ e ∈ s.memory.gFactoryTable, e.1 ≠ null
  count : ∀ p f, s.memory.factory p = some f → f.refCount = s.handles.count p
  /-- A factory is destroyed with its last handle. -/
  destroyed : ∀ p, s.memory.factory p = none ↔ p ∉ s.handles

/-- A call accesses no destroyed factory and the assertions on the table hold. The reference counts
may overflow. -/
def Safe (s : Client) (c : Call) : Prop := ∀ e, s.call c = .error e → e = .overflow

/-- The calls that keep the balance: a factory is not made outside the table, machine code that is
not in the table can be loaded, a key that is looked up is not in the table, and an instance is
deleted while its factory has a handle. -/
def Counted (s : Client) : Call → Prop
  | .createDSPFactory jit _ => jit = false
  | .readDSPFactoryFromMachine sha_key jit _ => jit = true ∨
    ∃ e ∈ s.memory.gFactoryTable, ∃ f, s.memory.factory e.1 = some f ∧ f.fSHAKey = sha_key
  | .createDSPFactoryFromSHAKey sha_key =>
    ∀ e ∈ s.memory.gFactoryTable, ∀ f, s.memory.factory e.1 = some f → f.fSHAKey ≠ sha_key
  | .deleteDSPInstance i => i ∉ s.orphans
  | _ => True

end Faust.LLVM
