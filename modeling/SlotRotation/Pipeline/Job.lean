import SlotRotation.Pipeline.Context

/-! Work that goes on beside other work. All a job does to the shared context is one request after the other, so runs
of several jobs differ only in how their requests interleave. -/

namespace SlotRotation

/-- A job is done, or it has a request and goes on after that: log an event, keep a failure, mark a kernel as
processed, or look at the context and go on by what it sees. -/
inductive Job (α : Type) : Type where
  | done (result : α)
  | record (event : Event) (next : Job α)
  | fail (diagnostic : Diagnostic) (next : Job α)
  | mark (name : String) (next : Job α)
  | look (next : Context → Job α)

namespace Job

variable {α β : Type}

def bind : Job α → (α → Job β) → Job β
  | done a, f => f a
  | record event next, f => record event (next.bind f)
  | fail diagnostic next, f => fail diagnostic (next.bind f)
  | mark name next, f => mark name (next.bind f)
  | look next, f => look fun c => (next c).bind f

instance : Monad Job where
  pure := done
  bind := bind

def run : Job α → Context → α × Context
  | done a, c => (a, c)
  | record event next, c => next.run (c.record event)
  | fail diagnostic next, c => next.run (c.keepFailure diagnostic)
  | mark name next, c => next.run (c.markDone name)
  | look next, c => (next c).run c

def recordEvent (event : Event) : Job Unit := record event (done ())

def recordAll : List Event → Job Unit
  | [] => done ()
  | event :: events => record event (recordAll events)

/-- Logs a failure, then keeps it: two requests, between which others may come. -/
def addFailure (diagnostic : Diagnostic) : Job Unit :=
  record (Context.failureEvent diagnostic) (fail diagnostic (done ()))

def markDone (name : String) : Job Unit := mark name (done ())

def ask (view : Context → β) : Job β := look fun c => done (view c)

def failure? (name : String) : Job (Option Diagnostic) := ask (·.failure? name)

end Job
end SlotRotation
