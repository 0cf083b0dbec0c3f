import ScriptMachine.Iteration.Items
import ScriptMachine.Machine.Guard
import ScriptMachine.Memory

/-!
# Running host functions

The machine carries out what a host function asks for, one request after the other.
-/

namespace ScriptMachine.VM

/-- Call under guard.  A thrown value is handed over; conditions beyond catching go on. -/
def tryCall (enter : Enter) (callee this : Value) (args : List Value) : VM (Except Exception Value) := do
  match ← attempt (guarded enter (enter (.call callee this args))) with
  | .ok v => return .ok v
  | .error (.thrown e) => return .error e
  | .error f => raise f

def allItems (enter : Enter) (fuel : Nat) (v : Value) (limit : Option ItemLimit) : VM (List Value) := do
  let (taken, ended) ← collectItems enter fuel v limit
  ofOutcome ended
  return taken.reverse

def perform (enter : Enter) (fuel : Nat) : (op : HostOp) → VM op.Answer
  | .call callee this args => attempt (enter (.call callee this args))
  | .tryCall callee this args => attempt (tryCall enter callee this args)
  | .construct callee args newTarget => attempt (enter (.construct callee args newTarget))
  | .evaluate source direct strict this => attempt (enter (.evaluate source direct strict this))
  | .runProgram p => attempt (enter (.program p))
  | .toPrimitive v hint => attempt (toPrimitive enter v hint)
  | .toNumber v => attempt (toNumber enter v)
  | .toText v => attempt (toText enter v)
  | .toPropertyKey v => attempt (toPropertyKey enter v)
  | .toObject v => attempt (toObject v)
  | .looseEquals a b => attempt (looseEquals enter a b)
  | .instanceOf v target => attempt (instanceOf v target)
  | .hasIn key target => attempt (hasIn enter key target)
  | .items iterable limit => attempt (allItems enter fuel iterable limit)
  | .openIterator iterable => attempt (openIterator enter iterable)
  | .stepIterator i => stepIterator enter i
  | .closeIterator i => attempt (closeIterator enter i)
  | .getProperty v key => attempt (getProperty v key)
  | .putProperty v key x strict => attempt (putProperty v key x strict)
  | .copyProperties target source => attempt (copyProperties target source)
  | .get o key => onStore (Store.get? o key)
  | .define o key p strict => onStore (Store.define o key p strict)
  | .assign o key v strict => onStore (Store.assign o key v strict)
  | .delete o key strict => onStore (Store.delete o key strict)
  | .ownProperty o key => onStore (Store.ownProperty? o key)
  | .ownKeys o => onStore (Store.ownKeys o)
  | .preventExtensions o => onStore (Store.preventExtensions o)
  | .setPrototype o prototype => onStore (Store.setPrototype o prototype)
  | .pushItem o v => onStore (Store.pushItem o v)
  | .isCallable o => onStore (Store.isCallable o)
  | .className o => onStore (Store.className o)
  | .newObject prototype => onStore (Store.newObject (.ofKind prototype .ordinary))
  | .newArray elements => do onStore ((← realm).newArray elements)
  | .newBound target this args => do onStore ((← realm).newBound ⟨target, this, args⟩)
  | .newError kind message => do onStore ((← realm).newError kind message)
  | .newCell n => onStore (Store.newCell n)
  | .readCell c => return (← get).store.cell c
  | .writeCell c n => onStore (modify fun σ => σ.setCell c n)
  | .setInterrupt i => modify fun m => { m with interrupt := some i }
  | .clearInterrupt => modify fun m => { m with interrupt := none }
  | .setLimits l => modify fun m => { m with limits := l }
  | .setCompiler c => modify fun m => { m with compiler := some c }
  | .interrupted => return (← get).interrupt.isSome
  | .depths => do
    let m ← get
    return (m.frames.length, m.loops.length, m.scopesMade)
  | .trace => trace
  | .memory => return ((← get).memory none).toOption.getD 0
  | .log line => onStore (modify fun σ => σ.log [line])
  | .display v => display v
  | .realm => realm

def runHost (enter : Enter) (fuel : Nat) : Behaviour → VM Value
  | .done outcome => ofOutcome outcome
  | .ask op next => do runHost enter fuel (next (← perform enter fuel op))
  | .makeNative name length body next => do
    let o ← onStore ((← realm).newNative ⟨name, length, body, none⟩)
    runHost enter fuel (next o)

end ScriptMachine.VM
