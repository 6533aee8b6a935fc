import LsmStore.Cli.Run

/-!
# The command-line tool

Reads the data directory into a volume, runs the command line against it, writes back what
changed, and prints the output. A command line that does not fit is reported on standard error
with exit code 2.
-/

open LsmStore

/-- Every path under `root`, relative to it, with its contents; directories as such. -/
partial def loadTree (root rel : String) : IO (List (String × Node)) := do
  let here := if rel.isEmpty then root else root ++ "/" ++ rel
  let entries ← (System.mkFilePath [here]).readDir
  let mut found : List (String × Node) := []
  for e in entries do
    let path := if rel.isEmpty then e.fileName else rel ++ "/" ++ e.fileName
    if ← e.path.isDir then
      found := found ++ [(path, .dir)] ++ (← loadTree root path)
    else
      found := found ++ [(path, .file (← IO.FS.readBinFile e.path).toList)]
  return found

/-- The data directory at `root` as a volume; a missing one is empty. -/
def loadVolume (root : String) : IO Volume := do
  if ← (System.mkFilePath [root]).isDir then return Volume.ofTree (← loadTree root "")
  return {}

/-- Writes the changes from `before` to `after` under `root`. -/
def storeVolume (root : String) (before after : Volume) : IO Unit := do
  let full (p : String) : String := root ++ "/" ++ p
  IO.FS.createDirAll root
  for (p, n) in before.listing "" do
    if after.find? p != some n then
      try
        match n with
        | .file _ => IO.FS.removeFile (full p)
        | .dir => if after.find? p == none then IO.FS.removeDirAll (full p)
      catch _ => pure ()
  let dirs := (after.listing "").filter fun (_, n) => n == .dir
  for (p, _) in dirs do
    IO.FS.createDirAll (full p)
  for (p, n) in after.listing "" do
    match n with
    | .file bs => if before.find? p != some n then IO.FS.writeBinFile (full p) ⟨bs.toArray⟩
    | .dir => pure ()

/-- Runs the tool. -/
def main (args : List String) : IO UInt32 := do
  match Cli.parse args with
  | .error e =>
    IO.eprintln ("error: " ++ e.message)
    return UInt32.ofNat Cli.usageExit
  | .ok (.show text) =>
    IO.print text
    return 0
  | .ok (.run o c) =>
    let before ← loadVolume o.dataDir
    let (out, after) := Cli.execute o c before
    storeVolume o.dataDir before after
    IO.print out.stdout
    return UInt32.ofNat out.code
