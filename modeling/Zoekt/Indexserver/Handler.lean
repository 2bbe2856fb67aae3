import Zoekt.Indexserver.Basic

/-!
# What `Index` and the re-index handler report

`Index` resolves `HEAD` and runs the builder through `loggedRun`, which logs a failed run
and returns nothing: `Index` returns nil whenever it ran the builder, whatever the builder's
exit status. It is also nil when `HEAD` resolves to a 200 answer with an empty body: the
check `err != nil || commit == ""` then logs that the revision could not be resolved and
returns `err`, which is nil, and nothing runs. A POST to the handler answers
"Indexed <name>" exactly when `Index` returned nil.
-/

namespace Zoekt.Indexserver

open Go

/-- The URL `resolveRevision` asks for `HEAD` of a repository. -/
def headURL (root : URL) (repo : String) : String :=
  root.resolveReference ("/.internal/git/" ++ repo ++ "/resolve-revision/" ++ "HEAD")

/-! ## Resolving `HEAD` -/

theorem resolveRevision_eq_errNotExist_iff (w : World) (root : URL) (repo : String) :
    resolveRevision w root repo "HEAD" = .error .errNotExist ↔
      ∃ status body, w.get (headURL root repo) = .received 404 status body := by
  unfold resolveRevision headURL
  split
  · simp_all
  · split_ifs <;> (try split) <;> simp_all

theorem resolveRevision_eq_ok_iff (w : World) (root : URL) (repo commit : String) :
    resolveRevision w root repo "HEAD" = .ok commit ↔
      ∃ status, w.get (headURL root repo) = .received 200 status (.ok commit) := by
  unfold resolveRevision headURL
  split
  · simp_all
  · split_ifs <;> (try split) <;> simp_all

/-! ## `Index` -/

/-- A world where `HEAD` of every repository resolves to `deadbeef` and every build fails. -/
def World.failingBuilds : World :=
  { World.offline with
    get := fun _ ↦ .received 200 "200 OK" (.ok "deadbeef")
    exitOk := fun _ ↦ false }

-- A build that fails is reported as a success.
example : Server.serveHTTP ⟨⟨id⟩, "/data/index", 1⟩ .failingBuilds [] ⟨"/", "POST", "r"⟩ =
    (.index [] "Indexed r",
      [.run (archiveIndexCmd "-parallelism=1" ⟨id⟩ "/data/index" "deadbeef" "r") false]) := by
  decide

/-! ## An empty commit -/

/-- When `HEAD` answers 200 with an empty body, `Index` takes the branch of a failed resolution
with a nil error: nothing runs, `Index` returns nil, and a POST is answered
"Indexed <name>". -/
theorem index_nil_without_build_on_empty_commit (s : Server) (w : World) (name : String)
    (h : ∃ status, w.get (headURL s.root name) = .received 200 status (.ok "")) :
    s.index w name = (none, []) ∧ ∀ repos path, path ≠ "/debug/requests" →
      s.serveHTTP w repos ⟨path, "POST", name⟩ = (.index repos ("Indexed " ++ name), []) := by
  have hi : s.index w name = (none, []) := by
    rw [Server.index, indexWith, (resolveRevision_eq_ok_iff w s.root name "").2 h]
    rfl
  exact ⟨hi, fun repos path hpath ↦ by simp [Server.serveHTTP, hpath, hi]⟩

/-- A world where `HEAD` of every repository resolves to an empty body. -/
def World.emptyHead : World :=
  { World.offline with get := fun _ ↦ .received 200 "200 OK" (.ok "") }

theorem index_nil_without_build_on_empty_commit_at_r :
    (∃ status, World.emptyHead.get (headURL ⟨id⟩ "r") = .received 200 status (.ok "")) ∧
      Server.index ⟨⟨id⟩, "/data/index", 1⟩ .emptyHead "r" = (none, []) ∧
      ∀ repos path, path ≠ "/debug/requests" →
        Server.serveHTTP ⟨⟨id⟩, "/data/index", 1⟩ .emptyHead repos ⟨path, "POST", "r"⟩ =
          (.index repos ("Indexed " ++ "r"), []) :=
  have h : ∃ status, World.emptyHead.get (headURL ⟨id⟩ "r") = .received 200 status (.ok "") :=
    ⟨_, rfl⟩
  ⟨h, index_nil_without_build_on_empty_commit ⟨⟨id⟩, "/data/index", 1⟩ .emptyHead "r" h⟩

end Zoekt.Indexserver
