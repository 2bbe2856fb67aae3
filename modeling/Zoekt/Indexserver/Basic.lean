import Zoekt.Go.FileSystem

/-!
# zoekt-sourcegraph-indexserver: one repository, the stale-shard sweep, the serial loop

The indexserver lists the enabled repositories of a Sourcegraph instance, resolves `HEAD` of
each, runs `zoekt-archive-index` on its tarball (or on an empty archive when the repository
has no `HEAD`), and then deletes the shards of repositories that are no longer listed.

Three versions of the program are modelled. The current one (`Server.Index`, `ServeHTTP`)
runs the repositories of a cycle concurrently; its loop is in `Indexserver.Concurrent`. The
two earlier ones run them one after the other: `SerialServer.refresh` (a method of the
server, with the `-parallelism` flag set to `CPUCount`) and `refresh` (free functions, which
clamp the CPU count themselves). The three build their commands in the same way except for
the `-parallelism` flag, so one definition `indexWith` carries the common body.

HTTP, the builder's exit status and the file system are answers of the outside world
(`World`). The listing of a cycle is an input: its request and JSON decoding are not
modelled. Logging and tracing have no effect and are left out.
-/

namespace Zoekt.Indexserver

open Go Filepath

/-- The Sourcegraph base URL, through what the code asks of it:
`Root.ResolveReference(&url.URL{Path: p}).String()` for a path `p`. -/
structure URL where
  resolveReference : String → String

/-- What `http.Get` gives: a transport error, or a response with its status code, its status
line, and what reading its body gives (the body, or the read error's message). -/
inductive Response where
  | failed (msg : String)
  | received (statusCode : Nat) (status : String) (body : Except String String)

/-- An `exec.Cmd`: its arguments (the program first) and its standard input. -/
structure Cmd where
  args : List String
  stdin : List UInt8
  deriving DecidableEq

/-- What the indexserver does to the outside world: runs a command, which exits with status 0
or not, or removes a file. -/
inductive Event where
  | run (cmd : Cmd) (ok : Bool)
  | remove (path : String)
  deriving DecidableEq

/-- What opening a file and reading it as a shard gives: `os.Open`, `zoekt.NewIndexFile` or
`zoekt.ReadMetadata` fails, or the metadata names the shard's repository. -/
inductive ShardRead where
  | openFailed
  | notIndexFile
  | badMetadata
  | repository (name : String)
  deriving DecidableEq

/-- What the outside world answers during one cycle of the sync loop. -/
structure World where
  get : String → Response
  /-- Whether the builder, run with these arguments and input, exits with status 0. -/
  exitOk : Cmd → Bool
  fs : FileSystem
  readShard : String → ShardRead

/-- A world where every request fails, every build succeeds, and the disk is empty. -/
def World.offline : World where
  get _ := .failed "connection refused"
  exitOk _ := true
  fs := .empty
  readShard _ := .openFailed

/-- A disk whose root holds one directory, `idx2`, holding one file, `b`. -/
def twoDirDisk : FileSystem where
  lstat p := if p = "/" ∨ p = "/idx2" then .ok ⟨true, 0⟩
    else if p = "/idx2/b" then .ok ⟨false, 0⟩ else .error .errNotExist
  stat p := if p = "/" ∨ p = "/idx2" then .ok ⟨true, 0⟩
    else if p = "/idx2/b" then .ok ⟨false, 0⟩ else .error .errNotExist
  readdir d := (if d = "/" then ["idx2"] else if d = "/idx2" then ["b"] else [], none)
  getwd := .ok "/"
  names_valid d n h := by
    simp only at h
    split_ifs at h <;> simp_all [ValidName]
  getwd_abs _ h := by cases h; rfl

/-- A world where `HEAD` of `a` resolves to `c0ffee` and no other repository has one, every build
succeeds, and the disk holds `/idx2/b`, a shard of the repository `gone`. -/
def World.demo : World where
  get u := if u = "/.internal/git/a/resolve-revision/HEAD" then .received 200 "200 OK" (.ok "c0ffee")
    else .received 404 "404 Not Found" (.ok "")
  exitOk _ := true
  fs := twoDirDisk
  readShard p := if p = "/idx2/b" then .repository "gone" else .openFailed

/-- `Server`: the indexserver's options. `Interval` only paces the loop and `Debug` only adds
logging, so both are left out. -/
structure Server where
  root : URL
  indexDir : String
  cpuCount : Nat

/-! ## Requests -/

/-- `resolveRevision`: the commit `spec` resolves to, `os.ErrNotExist` on a 404. -/
def resolveRevision (w : World) (root : URL) (repo spec : String) : Except GoError String :=
  match w.get (root.resolveReference ("/.internal/git/" ++ repo ++ "/resolve-revision/" ++ spec)) with
  | .failed msg => .error (.other msg)
  | .received code status body =>
    if code = 404 then .error .errNotExist
    else if code ≠ 200 then
      .error (.other ("failed to resolve revision " ++ repo ++ "@" ++ spec ++ ": status " ++ status))
    else match body with
      | .error msg => .error (.other msg)
      | .ok b => .ok b

def tarballURL (root : URL) (repo commit : String) : String :=
  root.resolveReference ("/.internal/git/" ++ repo ++ "/tar/" ++ commit)

/-! ## Builder commands -/

/-- `loggedRun`: runs the command; a failure is only logged and traced. -/
def loggedRun (w : World) (cmd : Cmd) : List Event := [.run cmd (w.exitOk cmd)]

def emptyCommit : String := "404aaaaaaaaaaaaaaaaaaaaaaaaaaaaaaaaaaaaa"

/-- The command of `createEmptyShard`, the same in all versions: an archive of 1024 zero
bytes on standard input. -/
def emptyShardCmd (indexDir name : String) : Cmd where
  args := ["zoekt-archive-index", "-index", indexDir, "-incremental", "-branch", "HEAD",
    "-commit", emptyCommit, "-name", name, "-"]
  stdin := List.replicate 1024 0

/-- The command that builds `name` at `commit` from its tarball; the versions differ only in
the `-parallelism` argument. -/
def archiveIndexCmd (parallelism : String) (root : URL) (indexDir commit name : String) : Cmd where
  args := ["zoekt-archive-index", parallelism, "-index", indexDir, "-incremental", "-branch",
    "HEAD", "-commit", commit, "-name", name, tarballURL root name commit]
  stdin := []

/-- The body of `index` and `Index`: resolve `HEAD`; after a 404 build an empty shard; after
another failure, or an empty commit, give up with the error; otherwise build from the
tarball. The error is what `Index` returns; the serial versions drop it. -/
def indexWith (parallelism : String) (root : URL) (indexDir : String) (w : World)
    (name : String) : Option GoError × List Event :=
  match resolveRevision w root name "HEAD" with
  | .error err =>
    if err.isNotExist then (none, loggedRun w (emptyShardCmd indexDir name)) else (some err, [])
  | .ok commit =>
    if commit = "" then (none, [])
    else (none, loggedRun w (archiveIndexCmd parallelism root indexDir commit name))

/-! ## The stale-shard sweep -/

/-- The `exists` map built from a listing: `exists[name]` is true for the listed names. -/
def existsMap (repos : List String) (name : String) : Bool := decide (name ∈ repos)

/-- `deleteIfStale`: removes the file if it reads as a shard of a repository that `listed` (the
map `exists`) does not hold; a file that cannot be read as a shard is left alone. -/
def deleteIfStale (w : World) (listed : String → Bool) (fn : String) : List Event :=
  match w.readShard fn with
  | .repository name => if listed name then [] else [.remove fn]
  | _ => []

/-- `deleteStaleIndexes`: `deleteIfStale` on every match of `IndexDir + "/*"`; a `Glob`
error is only logged, and the matches found before it are still swept. -/
def deleteStaleIndexes (w : World) (indexDir : String) (listed : String → Bool) : List Event :=
  (w.fs.glob (indexDir ++ "/*")).1.flatMap (deleteIfStale w listed)

/-- What a cycle after a successful listing does once its repositories are indexed: sweep,
unless the listing was empty. -/
def sweep (w : World) (indexDir : String) (repos : List String) : List Event :=
  if repos.length = 0 then [] else deleteStaleIndexes w indexDir (existsMap repos)

/-! ## The serial versions -/

/-- One cycle of the serial loop after a successful listing: every repository in turn, then
the sweep. -/
def serialCycle (parallelism : String) (root : URL) (indexDir : String) (w : World)
    (repos : List String) : List Event :=
  repos.flatMap (fun name ↦ (indexWith parallelism root indexDir w name).2) ++
    sweep w indexDir repos

def serialTick (parallelism : String) (root : URL) (indexDir : String) (w : World) :
    Except GoError (List String) → List Event
  | .error _ => []
  | .ok repos => serialCycle parallelism root indexDir w repos

/-- `Server.Refresh` of the serial server, over the ticks it runs (the listing and the world
of each): the events of each cycle. -/
def SerialServer.refresh (s : Server) (ticks : List (Except GoError (List String) × World)) :
    List (List Event) :=
  ticks.map fun t ↦ serialTick ("-parallelism=" ++ toString s.cpuCount) s.root s.indexDir t.2 t.1

/-- `refresh` of the oldest version, given `math.Round(NumCPU * cpuFraction)`: the CPU count
is clamped to at least one, then the same loop runs. -/
def refresh (root : URL) (indexDir : String) (roundedCpus : Int)
    (ticks : List (Except GoError (List String) × World)) : List (List Event) :=
  let cpuCount := if roundedCpus < 1 then 1 else roundedCpus
  ticks.map fun t ↦ serialTick ("-parallelism=" ++ toString cpuCount) root indexDir t.2 t.1

/-! ## The current server's `Index` and HTTP handler -/

/-- `Server.Index` of the current version: the build runs with `-parallelism=1`, and the
error of a failed resolution is returned. -/
def Server.index (s : Server) (w : World) (name : String) : Option GoError × List Event :=
  indexWith "-parallelism=1" s.root s.indexDir w name

/-- A request to the handler: its URL path, its method and its `repo` form value. -/
structure Request where
  path : String
  method : String
  repo : String

/-- What `ServeHTTP` answers: the trace pages, or the index page's template data (the last
listing and the message of a re-index request). -/
inductive Page where
  | traces
  | index (repos : List String) (indexMsg : String)
  deriving DecidableEq

/-- `Server.ServeHTTP`, given the listing the sync loop stored last: a POST re-indexes the
requested repository. -/
def Server.serveHTTP (s : Server) (w : World) (repos : List String) (r : Request) :
    Page × List Event :=
  if r.path = "/debug/requests" then (.traces, [])
  else if r.method = "POST" then
    match s.index w r.repo with
    | (some err, evs) => (.index repos ("Indexing " ++ r.repo ++ " failed: " ++ err.error), evs)
    | (none, evs) => (.index repos ("Indexed " ++ r.repo), evs)
  else (.index repos "", [])

/-! ## `main` -/

/-- The flags of `main` after `flag.Parse()`. `-interval` only paces the loop, `-listen` only
serves the handler or the trace pages, and `-debug` only adds logging, so they are left out. -/
structure Flags where
  sourcegraphURL : String
  index : String
  /-- Whether `main`'s test `cpu_fraction <= 0.0 || cpu_fraction > 1.0` is false; over floats
  this also lets NaN through. -/
  cpuFractionOk : Bool
  /-- `math.Round(float64(runtime.NumCPU()) * cpu_fraction)`. -/
  roundedCpus : Int

/-- The checks every version of `main` makes before it runs: the message it exits with through
`log.Fatal`, or the parsed root URL. `url.Parse` and `os.MkdirAll` (run when `os.Stat` does not
find the index directory) are what they answer; prepending the binary's directory to `PATH` is
left out. -/
def checkFlags (fs : FileSystem) (parse : String → Except GoError URL)
    (mkdirAll : String → Option GoError) (f : Flags) : Except String URL :=
  if !f.cpuFractionOk then .error "cpu_fraction must be between 0.0 and 1.0"
  else if f.index = "" then .error "must set -index"
  else if f.sourcegraphURL = "" then .error "must set -sourcegraph_url"
  else
    match parse f.sourcegraphURL with
    | .error err => .error ("url.Parse(" ++ f.sourcegraphURL ++ "): " ++ err.error)
    | .ok root =>
      match fs.stat f.index with
      | .ok _ => .ok root
      | .error _ =>
        match mkdirAll f.index with
        | some err => .error ("MkdirAll " ++ f.index ++ ": " ++ err.error)
        | none => .ok root

/-- The `Server` the current `main` and the serial server's `main` run: `CPUCount` is the
rounded count, raised to one. -/
def mainServer (root : URL) (f : Flags) : Server :=
  ⟨root, f.index, if f.roundedCpus < 1 then 1 else f.roundedCpus.toNat⟩

/-- A `main` that passes its checks runs a server with an index directory and at least one
CPU. -/
theorem mainServer_of_checkFlags {fs : FileSystem} {parse : String → Except GoError URL}
    {mkdirAll : String → Option GoError} {f : Flags} {root : URL}
    (h : checkFlags fs parse mkdirAll f = .ok root) :
    (mainServer root f).indexDir ≠ "" ∧ 1 ≤ (mainServer root f).cpuCount := by
  unfold checkFlags at h
  split_ifs at h with hfrac hindex hurl
  refine ⟨hindex, ?_⟩
  show 1 ≤ if f.roundedCpus < 1 then 1 else f.roundedCpus.toNat
  split_ifs with hc
  · exact le_rfl
  · omega

-- One CPU at a quarter of the cores rounds to zero, and `main` raises it to one.
example : checkFlags .empty (fun _ ↦ .ok ⟨id⟩) (fun _ ↦ none)
      ⟨"http://sourcegraph-frontend-internal", "/", true, 0⟩ = .ok ⟨id⟩ ∧
    (mainServer ⟨id⟩ ⟨"http://sourcegraph-frontend-internal", "/", true, 0⟩).cpuCount = 1 :=
  ⟨rfl, rfl⟩

end Zoekt.Indexserver
