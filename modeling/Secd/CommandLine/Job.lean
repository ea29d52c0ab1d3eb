/-!
# Jobs

A job is a computation that may read and write files. It says what to do with the answer of each
access, whatever the files are and however they are reached; an access that fails is answered by the
reason.
-/

namespace Secd

/-- A computation that may read and write files. -/
inductive Job (α : Type) where
  | done (result : α)
  | read (path : String) (next : Except String (List UInt8) → Job α)
  | write (path : String) (bytes : List UInt8) (next : Except String Unit → Job α)

namespace Job

/-- Performs a job with the given ways to read and to write files. -/
def perform {α : Type} {m : Type → Type} [Monad m]
    (readFile : String → m (Except String (List UInt8)))
    (writeFile : String → List UInt8 → m (Except String Unit)) : Job α → m α
  | .done a => pure a
  | .read path next => do perform readFile writeFile (next (← readFile path))
  | .write path bytes next => do perform readFile writeFile (next (← writeFile path bytes))

end Job

end Secd
