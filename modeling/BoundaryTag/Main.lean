import BoundaryTag.Walkthrough

/-!
# Command line

Shows the walkthrough scene by scene and waits for one byte of input after each scene but the last.
-/

namespace BoundaryTag.Walkthrough

/-- Shows the scenes from one on. -/
def present (stdin stdout : IO.FS.Stream) : List (List String) → IO Unit
  | [] => return
  | [scene] => scene.forM stdout.putStrLn
  | scene :: rest => do
    (scene ++ prompt).forM stdout.putStrLn
    stdout.flush
    let _ ← stdin.read 1
    Walkthrough.present stdin stdout rest

end BoundaryTag.Walkthrough

/-- Runs the walkthrough. The first thread of a process has the number of the process. -/
def main : IO Unit := do
  let pid ← IO.getTID
  let scenes := BoundaryTag.Walkthrough.scenes (toString pid) BoundaryTag.hex
  BoundaryTag.Walkthrough.present (← IO.getStdin) (← IO.getStdout) scenes
