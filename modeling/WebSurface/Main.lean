import WebSurface.Command
set_option autoImplicit false

namespace WebSurface

def FileFault.ofError : IO.Error → FileFault
  | .noFileOrDirectory .. => .notFound
  | .permissionDenied _ 13 _ => .denied
  | .alreadyExists _ 17 _ => .exists
  | .inappropriateType _ 20 _ => .notDirectory
  | .inappropriateType _ 21 _ => .isDirectory
  | .userError _ => .notText
  | e => .other (toString e).toList

def tried {α : Type} (action : IO α) : IO (Except FileFault α) := do
  match ← action.toBaseIO with
  | .ok a => return .ok a
  | .error e => return .error (.ofError e)

/-- A file or directory can be opened, or at least is there to be opened. -/
def opened (path : Text) : IO (Except FileFault Unit) :=
  tried do discard (IO.FS.Handle.mk (String.ofList path) .read)

def isFile (path : Text) : IO Bool := do
  match ← tried (IO.FS.readBinFile (String.ofList path)) with
  | .ok _ => return true
  | .error _ => return false

def isDirectory (path : Text) : IO Bool := do
  match ← opened path with
  | .ok () => return !(← isFile path)
  | .error _ => return false

def system : Host IO where
  read path := tried do return (← IO.FS.readFile (String.ofList path)).toList
  write path content := tried (IO.FS.writeFile (String.ofList path) (String.ofList content))
  makeDirectory path := tried (IO.FS.createDir (String.ofList path))
  isThere path := do
    match ← opened path with
    | .error .notFound | .error .notDirectory => return false
    | _ => return true
  isFile := isFile
  isDirectory := isDirectory
  environment name := return (← IO.getEnv (String.ofList name)).map String.toList
  fetch _ := return .error "network access is not available".toList
  clock := IO.monoNanosNow
  print line := IO.println (String.ofList line)
  report line := IO.eprintln (String.ofList line)

end WebSurface

def main (args : List String) : IO UInt32 := do
  return (← WebSurface.Command.run WebSurface.system (args.map String.toList)).toUInt32
