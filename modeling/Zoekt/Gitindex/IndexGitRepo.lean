import Mathlib.Data.List.AList
import Mathlib.Data.List.Dedup
import Zoekt.Go.FileSystem

/-!
# Indexing the branches of a repository: `IndexGitRepo`

`IndexGitRepo` reads one commit per branch argument. Of each it keeps the blob id of every file
of its tree (`data`), adds the branch to the list of every file it has (`allfiles`), and records
the repository that holds each blob (`repos`). Then, file name by file name in `sort.Strings`
order, it groups the branches that have the name by the blob they have there (`shas`), and
hands the builder one document per blob that is not over `SizeMax`, labelled with its group.

When the arguments are indexed under distinct names, the documents are exactly the ones the
branches read call for: for each name, one per blob id it has in some branch, labelled with the
branches that have that blob there, in the order of the arguments; a name's documents come in
the order in which `range` visits a map, which Go leaves open. `IndexGitRepo` finishes exactly
when every read succeeds, the builder is made, and every blob can be found and read; when it
fails after making the builder, it failed on a blob that some branch has, and every document it
added before is one of those. Arguments read under one name (`HEAD` and the branch it points
to) are not merged: the name is listed once per argument, in the builder's branches and in
every document of their files.

git, `TreeToFiles` and the builder are what they answer (`GitWorld`). `guessRepoURL` only sets
the URL templates of the options and is left out.
-/

namespace Zoekt.Gitindex

open Go Filepath Strings

/-- A `git.Oid`: twenty bytes, whose zero value is `0`. -/
abbrev Oid := BitVec 160

/-- A `build.Branch`. -/
structure Branch where
  name : String
  version : String
  deriving DecidableEq, Repr

/-- A `zoekt.Document`, through the fields `IndexGitRepo` sets. -/
structure Document where
  name : String
  content : List UInt8
  branches : List String
  deriving DecidableEq, Repr

/-- What `TreeToFiles` returns for the tree of a commit: the blob id of each file, and the
repository (by handle) that holds each blob, the repository itself or a submodule's. -/
structure TreeFiles where
  files : AList fun _ : String ↦ Oid
  repos : AList fun _ : Oid ↦ Nat

/-- What git and the builder answer to `IndexGitRepo`. -/
structure GitWorld where
  /-- `git.OpenRepository(opts.RepoDir)`. -/
  openRepository : Option GoError
  /-- `repo.RevparseExt(b)`: the name of the reference it resolves through. -/
  revparseExt : String → Except GoError String
  /-- `getCommit(repo, ref)`: the id of the commit. -/
  getCommit : String → Except GoError Oid
  /-- `commit.Tree()` and `TreeToFiles(repo, tree, submodules)`. -/
  treeToFiles : Oid → Bool → Except GoError TreeFiles
  /-- `build.NewBuilder(opts)`, for the branches of the options. -/
  newBuilder : List Branch → Option GoError
  /-- `r.LookupBlob(&sha)` on the repository with handle `r`: the contents of the blob. -/
  lookupBlob : Nat → Oid → Except GoError (List UInt8)

/-- The order in which `range` visits the map from blob ids to branches of each file name: a
permutation of its entries, which Go leaves open. -/
structure RangeOrder where
  order : String → List (Σ _ : Oid, List String) → List (Σ _ : Oid, List String)
  perm : ∀ n l, (order n l).Perm l

/-- `m[k] = append(m[k], v)` on a map of slices, where an absent key reads as an empty slice. -/
def appendAt {κ ν : Type} [DecidableEq κ] (m : AList fun _ : κ ↦ List ν) (k : κ) (v : ν) :
    AList fun _ : κ ↦ List ν :=
  m.insert k ((m.lookup k).getD [] ++ [v])

/-- `%s` of a `[]string`. -/
def fmtStrings (l : List String) : String := "[" ++ " ".intercalate l ++ "]"

section AppendAt

variable {κ ν α : Type} [DecidableEq κ]

@[simp]
theorem mem_appendAt {m : AList fun _ : κ ↦ List ν} {k k' : κ} {v : ν} :
    k' ∈ appendAt m k v ↔ k' = k ∨ k' ∈ m :=
  AList.mem_insert _

theorem lookup_appendAt (m : AList fun _ : κ ↦ List ν) (k k' : κ) (v : ν) :
    (appendAt m k v).lookup k' =
      if k' = k then some ((m.lookup k).getD [] ++ [v]) else m.lookup k' := by
  unfold appendAt
  split_ifs with h
  · subst h
    exact AList.lookup_insert _
  · exact AList.lookup_insert_ne h

theorem lookup_foldl_appendAt (key : α → κ) (val : α → ν) (k : κ) :
    ∀ (l : List α) (m : AList fun _ : κ ↦ List ν),
      ((l.foldl (fun m x ↦ appendAt m (key x) (val x)) m).lookup k).getD [] =
        (m.lookup k).getD [] ++ (l.filter fun x ↦ key x = k).map val
  | [], m => by simp
  | x :: l, m => by
    rw [List.foldl_cons, lookup_foldl_appendAt key val k l, lookup_appendAt]
    by_cases h : k = key x
    · subst h
      simp
    · simp [h, Ne.symm h]

theorem mem_foldl_appendAt (key : α → κ) (val : α → ν) (k : κ) :
    ∀ (l : List α) (m : AList fun _ : κ ↦ List ν),
      k ∈ l.foldl (fun m x ↦ appendAt m (key x) (val x)) m ↔ k ∈ m ∨ ∃ x ∈ l, key x = k
  | [], m => by simp
  | x :: l, m => by
    rw [List.foldl_cons, mem_foldl_appendAt key val k l, mem_appendAt]
    simp only [List.mem_cons, exists_eq_or_imp]
    rw [or_assoc, or_left_comm, @eq_comm _ k]

theorem lookup_foldl_appendAt_empty (key : α → κ) (val : α → ν) (k : κ) (l : List α) :
    (l.foldl (fun m x ↦ appendAt m (key x) (val x)) ∅).lookup k =
      if ∃ x ∈ l, key x = k then some ((l.filter fun x ↦ key x = k).map val) else none := by
  have hget := lookup_foldl_appendAt key val k l ∅
  have hmem := mem_foldl_appendAt key val k l ∅
  rw [AList.lookup_empty, Option.getD_none, List.nil_append] at hget
  simp only [AList.not_mem_empty, false_or] at hmem
  split_ifs with h
  · obtain ⟨v, hv⟩ := Option.isSome_iff_exists.1 (AList.lookup_isSome.2 (hmem.2 h))
    rw [hv] at hget ⊢
    exact congrArg some hget
  · exact AList.lookup_eq_none.2 (mt hmem.1 h)

theorem lookup_foldl_insert (k : κ) :
    ∀ (l : List (Σ _ : κ, ν)), l.NodupKeys → ∀ (m : AList fun _ : κ ↦ ν),
      (l.foldl (fun m e ↦ m.insert e.1 e.2) m).lookup k = (l.dlookup k).or (m.lookup k)
  | [], _, m => by simp
  | ⟨k', v⟩ :: l, hl, m => by
    rw [List.nodupKeys_cons] at hl
    rw [List.foldl_cons, lookup_foldl_insert k l hl.2]
    by_cases h : k = k'
    · subst h
      rw [AList.lookup_insert, List.dlookup_cons_eq, List.dlookup_eq_none.2 hl.1]
      rfl
    · rw [AList.lookup_insert_ne h, List.dlookup_cons_ne _ _ h]

end AppendAt

/-! ## The branch loop -/

/-- The name a branch argument is indexed under, and the reference read for it. -/
def resolveBranch (g : GitWorld) (branchPrefix b : String) : Except GoError (String × String) :=
  if b ≠ "HEAD" then .ok (b, join branchPrefix b)
  else
    match g.revparseExt b with
    | .error e => .error e
    | .ok ref => .ok (trimPrefix ref branchPrefix, ref)

/-- The maps the branch loop fills: the branches of the options, `allfiles`, `data` and
`repos`. -/
structure Collected where
  branches : List Branch
  allfiles : AList fun _ : String ↦ List String
  data : AList fun _ : String ↦ AList fun _ : String ↦ Oid
  repos : AList fun _ : Oid ↦ Nat

def Collected.empty : Collected := ⟨[], ∅, ∅, ∅⟩

/-- The rest of an iteration of the branch loop, for the branch indexed as `b`, its commit and
its files. The loops over `subRepos` and `fs` assign distinct keys, so the order in which
`range` visits them does not matter. -/
def Collected.add (c : Collected) (b : String) (commit : Oid) (t : TreeFiles) : Collected where
  branches := c.branches ++ [⟨b, commit.toHex⟩]
  allfiles := t.files.keys.foldl (fun allfiles f ↦ appendAt allfiles f b) c.allfiles
  data := c.data.insert b t.files
  repos := t.repos.entries.foldl (fun repos e ↦ repos.insert e.1 e.2) c.repos

/-- The loop over the branch arguments; the first error ends `IndexGitRepo`. -/
def collect (g : GitWorld) (branchPrefix : String) (submodules : Bool) :
    List String → Collected → Except GoError Collected
  | [], c => .ok c
  | b :: bs, c =>
    match resolveBranch g branchPrefix b with
    | .error e => .error e
    | .ok (b, fullName) =>
      match g.getCommit fullName with
      | .error e => .error e
      | .ok commit =>
        match g.treeToFiles commit submodules with
        | .error e => .error e
        | .ok t => collect g branchPrefix submodules bs (c.add b commit t)

/-! ## The document loop -/

/-- `data[b][n]`: the blob id of `n` in the branch indexed as `b`, zero when either map lacks
the key. -/
def Collected.sha (c : Collected) (b n : String) : Oid :=
  ((c.data.lookup b).bind fun fs ↦ fs.lookup n).getD 0

/-- `shas` for the name `n`: the branches of `allfiles[n]` by the blob id `n` has in them. -/
def Collected.shas (c : Collected) (n : String) : AList fun _ : Oid ↦ List String :=
  ((c.allfiles.lookup n).getD []).foldl (fun shas b ↦ appendAt shas (c.sha b n) b) ∅

/-- `r := repos[sha]` and `r.LookupBlob(&sha)`, for the name `n` and the branches that have the
blob at `n`. -/
def Collected.lookupBlob (c : Collected) (g : GitWorld) (n : String) (sha : Oid)
    (branches : List String) : Except GoError (List UInt8) :=
  match c.repos.lookup sha with
  | none => .error (.other ("no repo found for " ++ n ++ " (" ++ fmtStrings branches ++ ")"))
  | some r => g.lookupBlob r sha

/-- The loop over the blob ids of `n`, in the order `range` visits them: the documents added,
and the error that ended `IndexGitRepo`. -/
def addDocs (g : GitWorld) (sizeMax : Int) (c : Collected) (n : String) :
    List (Σ _ : Oid, List String) → List Document × Option GoError
  | [] => ([], none)
  | ⟨sha, branches⟩ :: shas =>
    match c.lookupBlob g n sha branches with
    | .error e => ([], some e)
    | .ok blob =>
      if (blob.length : Int) > sizeMax then addDocs g sizeMax c n shas
      else
        let rest := addDocs g sizeMax c n shas
        (⟨n, blob, branches⟩ :: rest.1, rest.2)

/-- The loop over the sorted names. -/
def addNames (g : GitWorld) (order : RangeOrder) (sizeMax : Int) (c : Collected) :
    List String → List Document × Option GoError
  | [] => ([], none)
  | n :: names =>
    match addDocs g sizeMax c n (order.order n (c.shas n).entries) with
    | (docs, some e) => (docs, some e)
    | (docs, none) =>
      let rest := addNames g order sizeMax c names
      (docs ++ rest.1, rest.2)

/-- `IndexGitRepo(opts, branchPrefix, branches, submodules)` with `opts.SizeMax = sizeMax`: the
error it returns before it has a builder, or the branches of the options it makes the builder
with, the documents it adds, and the error it returns (none after `builder.Finish()`). -/
def indexGitRepo (g : GitWorld) (order : RangeOrder) (sizeMax : Int) (branchPrefix : String)
    (branches : List String) (submodules : Bool) :
    Except GoError (List Branch × List Document × Option GoError) :=
  match g.openRepository with
  | some e => .error e
  | none =>
    match collect g branchPrefix submodules branches .empty with
    | .error e => .error e
    | .ok c =>
      match g.newBuilder c.branches with
      | some e => .error e
      | none => .ok (c.branches, addNames g order sizeMax c (sortStrings c.allfiles.keys))

/-! ## What the branch loop collects -/

section Add

variable (c : Collected) (b : String) (commit : Oid) (t : TreeFiles)

@[simp]
theorem branches_add : (c.add b commit t).branches = c.branches ++ [⟨b, commit.toHex⟩] := rfl

theorem lookup_allfiles_add (n : String) :
    ((c.add b commit t).allfiles.lookup n).getD [] =
      (c.allfiles.lookup n).getD [] ++ if n ∈ t.files then [b] else [] := by
  have h := lookup_foldl_appendAt (fun f : String ↦ f) (fun _ ↦ b) n t.files.keys c.allfiles
  rw [List.filter_eq, List.count_eq_of_nodup t.files.keys_nodup] at h
  by_cases hn : n ∈ t.files
  · simpa [hn, AList.mem_keys.1 hn] using h
  · simpa [hn, mt AList.mem_keys.2 hn] using h

theorem mem_allfiles_add (n : String) :
    n ∈ (c.add b commit t).allfiles ↔ n ∈ c.allfiles ∨ n ∈ t.files := by
  have h := mem_foldl_appendAt (fun f : String ↦ f) (fun _ ↦ b) n t.files.keys c.allfiles
  simpa [AList.mem_keys] using h

theorem lookup_data_add (b' : String) :
    (c.add b commit t).data.lookup b' = if b' = b then some t.files else c.data.lookup b' := by
  split_ifs with h
  · subst h
    exact AList.lookup_insert _
  · exact AList.lookup_insert_ne h

theorem lookup_repos_add (sha : Oid) :
    (c.add b commit t).repos.lookup sha = (t.repos.lookup sha).or (c.repos.lookup sha) :=
  lookup_foldl_insert sha t.repos.entries t.repos.nodupKeys c.repos

end Add

/-- What the branch loop read for one argument: the name it indexes the branch under, the
commit, and the files of its tree. -/
structure BranchRead where
  name : String
  commit : Oid
  tree : TreeFiles

def BranchRead.branch (r : BranchRead) : Branch := ⟨r.name, r.commit.toHex⟩

/-- The branch argument `b` is read as `r`. -/
def ReadsAs (g : GitWorld) (branchPrefix : String) (submodules : Bool) (b : String)
    (r : BranchRead) : Prop :=
  ∃ ref, resolveBranch g branchPrefix b = .ok (r.name, ref) ∧ g.getCommit ref = .ok r.commit ∧
    g.treeToFiles r.commit submodules = .ok r.tree

/-- The maps after the branch loop has read `rs`. -/
def collected (rs : List BranchRead) (c : Collected) : Collected :=
  rs.foldl (fun c r ↦ c.add r.name r.commit r.tree) c

@[simp]
theorem collected_cons (r : BranchRead) (rs : List BranchRead) (c : Collected) :
    collected (r :: rs) c = collected rs (c.add r.name r.commit r.tree) := rfl

theorem collect_eq_ok {g : GitWorld} {branchPrefix : String} {submodules : Bool} :
    ∀ {bs : List String} {c c' : Collected}, collect g branchPrefix submodules bs c = .ok c' ↔
      ∃ rs, List.Forall₂ (ReadsAs g branchPrefix submodules) bs rs ∧ c' = collected rs c
  | [], c, c' => by
    simp [collect, collected, eq_comm]
  | b :: bs, c, c' => by
    simp only [List.forall₂_cons_left_iff]
    constructor
    · intro h
      simp only [collect] at h
      split at h
      · cases h
      · rename_i name ref hres
        split at h
        · cases h
        · rename_i commit hcommit
          split at h
          · cases h
          · rename_i t htree
            obtain ⟨rs, hrs, rfl⟩ := collect_eq_ok.1 h
            exact ⟨_, ⟨⟨name, commit, t⟩, rs, ⟨ref, hres, hcommit, htree⟩, hrs, rfl⟩, rfl⟩
    · rintro ⟨_, ⟨r, rs, ⟨ref, hres, hcommit, htree⟩, hrs, rfl⟩, rfl⟩
      simp only [collect, hres, hcommit, htree]
      exact collect_eq_ok.2 ⟨rs, hrs, rfl⟩

theorem branches_collected (rs : List BranchRead) (c : Collected) :
    (collected rs c).branches = c.branches ++ rs.map BranchRead.branch := by
  induction rs generalizing c with
  | nil => simp [collected]
  | cons r rs ih => simp [ih, BranchRead.branch]

theorem lookup_allfiles_collected (rs : List BranchRead) (c : Collected) (n : String) :
    ((collected rs c).allfiles.lookup n).getD [] =
      (c.allfiles.lookup n).getD [] ++ (rs.filter fun r ↦ n ∈ r.tree.files).map (·.name) := by
  induction rs generalizing c with
  | nil => simp [collected]
  | cons r rs ih =>
    rw [collected_cons, ih, lookup_allfiles_add]
    by_cases hn : n ∈ r.tree.files <;> simp [hn]

theorem mem_allfiles_collected (rs : List BranchRead) (c : Collected) (n : String) :
    n ∈ (collected rs c).allfiles ↔ n ∈ c.allfiles ∨ ∃ r ∈ rs, n ∈ r.tree.files := by
  induction rs generalizing c with
  | nil => simp [collected]
  | cons r rs ih =>
    rw [collected_cons, ih, mem_allfiles_add]
    simp only [List.mem_cons, exists_eq_or_imp]
    rw [or_assoc]

theorem lookup_data_collected_of_not_mem {rs : List BranchRead} {b : String}
    (hb : b ∉ rs.map (·.name)) (c : Collected) :
    (collected rs c).data.lookup b = c.data.lookup b := by
  induction rs generalizing c with
  | nil => rfl
  | cons r rs ih =>
    simp only [List.map_cons, List.mem_cons, not_or] at hb
    rw [collected_cons, ih hb.2, lookup_data_add, if_neg hb.1]

/-- The branches read under one name have the same files: HEAD and the branch it points to, or
an argument given twice. Distinct names are a case of it. -/
def SameFiles (rs : List BranchRead) : Prop :=
  ∀ r ∈ rs, ∀ r' ∈ rs, r.name = r'.name → r.tree.files = r'.tree.files

theorem sameFiles_of_nodup {rs : List BranchRead} (hnd : (rs.map (·.name)).Nodup) : SameFiles rs :=
  fun _ hr _ hr' h ↦ by rw [List.inj_on_of_nodup_map hnd hr hr' h]

theorem SameFiles.of_cons {r : BranchRead} {rs : List BranchRead} (h : SameFiles (r :: rs)) :
    SameFiles rs :=
  fun r₁ h₁ r₂ h₂ ↦ h r₁ (List.mem_cons_of_mem _ h₁) r₂ (List.mem_cons_of_mem _ h₂)

theorem lookup_data_collected {rs : List BranchRead} (hsame : SameFiles rs)
    {r : BranchRead} (hr : r ∈ rs) (c : Collected) :
    (collected rs c).data.lookup r.name = some r.tree.files := by
  induction rs generalizing c r with
  | nil => cases hr
  | cons r' rs ih =>
    rw [collected_cons]
    by_cases hlater : ∃ r'' ∈ rs, r''.name = r.name
    · obtain ⟨r'', hr'', hname⟩ := hlater
      rw [← hname, ih hsame.of_cons hr'' _,
        hsame r'' (List.mem_cons_of_mem _ hr'') r hr hname]
    · push_neg at hlater
      rcases List.mem_cons.1 hr with rfl | hr
      · have hb : r.name ∉ rs.map (·.name) := by
          simpa using fun r'' hr'' ↦ hlater r'' hr''
        rw [lookup_data_collected_of_not_mem hb, lookup_data_add, if_pos rfl]
      · exact absurd rfl (hlater r hr)

theorem lookup_repos_collected (rs : List BranchRead) (c : Collected) (sha : Oid) :
    (collected rs c).repos.lookup sha =
      (rs.reverse.findSome? fun r ↦ r.tree.repos.lookup sha).or (c.repos.lookup sha) := by
  induction rs generalizing c with
  | nil => rfl
  | cons r rs ih =>
    rw [collected_cons, ih, lookup_repos_add, List.reverse_cons, List.findSome?_append,
      Option.or_assoc]
    cases h : r.tree.repos.lookup sha <;> simp [List.findSome?, h]

/-! ## What the documents should be -/

def fileNames (rs : List BranchRead) : List String :=
  (rs.flatMap fun r ↦ r.tree.files.keys).dedup

def blobIds (rs : List BranchRead) (n : String) : List Oid :=
  (rs.filterMap fun r ↦ r.tree.files.lookup n).dedup

/-- The names of the branches read that have the blob `sha` at `n`, in the order of the
arguments. -/
def branchesWith (rs : List BranchRead) (n : String) (sha : Oid) : List String :=
  (rs.filter fun r ↦ r.tree.files.lookup n = some sha).map (·.name)

/-- The repository the branch loop records for the blob `sha`: the one that the last tree
recording one for it gives. -/
def repoOf (rs : List BranchRead) (sha : Oid) : Option Nat :=
  rs.reverse.findSome? fun r ↦ r.tree.repos.lookup sha

/-- The document for the branches read that have the blob `sha` at `n`: the contents of the
blob, read from the repository recorded for it, unless they are over `SizeMax`. -/
def expectedDoc (g : GitWorld) (rs : List BranchRead) (sizeMax : Int) (n : String) (sha : Oid) :
    Option Document :=
  match repoOf rs sha with
  | none => none
  | some r =>
    match g.lookupBlob r sha with
    | .error _ => none
    | .ok blob =>
      if (blob.length : Int) > sizeMax then none else some ⟨n, blob, branchesWith rs n sha⟩

/-- Every blob the documents call for has a recorded repository, which can read it. -/
def BlobsReadable (g : GitWorld) (rs : List BranchRead) : Prop :=
  ∀ n ∈ fileNames rs, ∀ sha ∈ blobIds rs n,
    ∃ r blob, repoOf rs sha = some r ∧ g.lookupBlob r sha = .ok blob

theorem mem_fileNames {rs : List BranchRead} {n : String} :
    n ∈ fileNames rs ↔ ∃ r ∈ rs, n ∈ r.tree.files := by
  simp [fileNames, AList.mem_keys]

theorem mem_blobIds {rs : List BranchRead} {n : String} {sha : Oid} :
    sha ∈ blobIds rs n ↔ ∃ r ∈ rs, r.tree.files.lookup n = some sha := by
  simp [blobIds]

theorem keys_allfiles_perm (rs : List BranchRead) :
    (collected rs .empty).allfiles.keys.Perm (fileNames rs) := by
  refine (List.perm_ext_iff_of_nodup (AList.keys_nodup _)
    (show (fileNames rs).Nodup from List.nodup_dedup _)).2 fun n ↦ ?_
  rw [← AList.mem_keys, mem_allfiles_collected, mem_fileNames]
  simp [Collected.empty]

section SameFiles

variable {rs : List BranchRead} (hsame : SameFiles rs)
include hsame

theorem sha_collected_iff {r : BranchRead} (hr : r ∈ rs) (n : String) (sha : Oid) :
    (n ∈ r.tree.files ∧ (collected rs .empty).sha r.name n = sha) ↔
      r.tree.files.lookup n = some sha := by
  rw [Collected.sha, lookup_data_collected hsame hr, Option.some_bind, ← AList.lookup_isSome]
  cases r.tree.files.lookup n <;> simp

theorem lookup_shas (n : String) (sha : Oid) :
    ((collected rs .empty).shas n).lookup sha =
      if ∃ r ∈ rs, r.tree.files.lookup n = some sha then some (branchesWith rs n sha)
      else none := by
  have hall := lookup_allfiles_collected rs .empty n
  rw [show (Collected.empty.allfiles.lookup n).getD [] = [] from rfl, List.nil_append] at hall
  rw [Collected.shas, hall, lookup_foldl_appendAt_empty]
  have hex : (∃ b ∈ (rs.filter fun r ↦ n ∈ r.tree.files).map (·.name),
      (collected rs .empty).sha b n = sha) ↔ ∃ r ∈ rs, r.tree.files.lookup n = some sha := by
    simp only [List.mem_map, List.mem_filter, decide_eq_true_eq]
    constructor
    · rintro ⟨_, ⟨r, ⟨hr, hn⟩, rfl⟩, hsha⟩
      exact ⟨r, hr, (sha_collected_iff hsame hr n sha).1 ⟨hn, hsha⟩⟩
    · rintro ⟨r, hr, hsha⟩
      obtain ⟨hn, hsha⟩ := (sha_collected_iff hsame hr n sha).2 hsha
      exact ⟨_, ⟨r, ⟨hr, hn⟩, rfl⟩, hsha⟩
  have hfilter : (((rs.filter fun r ↦ n ∈ r.tree.files).map (·.name)).filter fun b ↦
      (collected rs .empty).sha b n = sha) = branchesWith rs n sha := by
    rw [List.filter_map, List.filter_filter, branchesWith]
    congr 1
    refine List.filter_congr fun r hr ↦ ?_
    rw [Bool.eq_iff_iff]
    simpa [and_comm] using sha_collected_iff hsame hr n sha
  simp only [hex, hfilter, List.map_id']

end SameFiles

theorem dlookup_map_mk {κ ν : Type} [DecidableEq κ] (f : κ → ν) (k : κ) :
    ∀ l : List κ, (l.map fun k ↦ (⟨k, f k⟩ : Σ _ : κ, ν)).dlookup k = if k ∈ l then some (f k) else none
  | [] => rfl
  | k' :: l => by
    by_cases h : k = k'
    · subst h
      simp [List.dlookup_cons_eq]
    · simp [List.dlookup_cons_ne _ (⟨k', f k'⟩ : Σ _ : κ, ν) h, dlookup_map_mk f k l, h]

theorem shas_entries_perm {rs : List BranchRead} (hsame : SameFiles rs) (n : String) :
    ((collected rs .empty).shas n).entries.Perm
      ((blobIds rs n).map fun sha ↦ ⟨sha, branchesWith rs n sha⟩) := by
  refine List.lookup_ext (AList.nodupKeys _) ?_ fun sha bs ↦ ?_
  · have hkeys : ((blobIds rs n).map fun sha ↦
        (⟨sha, branchesWith rs n sha⟩ : Σ _ : Oid, List String)).keys = blobIds rs n := by
      rw [List.keys, List.map_map]
      exact List.map_id' _
    rw [List.NodupKeys, hkeys]
    exact List.nodup_dedup _
  · rw [← AList.lookup, lookup_shas hsame, dlookup_map_mk]
    simp only [mem_blobIds]

/-! ## What the document loop adds -/

/-- The document `addDocs` adds for one entry of `shas`: none when its blob cannot be read or
is over `SizeMax`. -/
def entryDoc (g : GitWorld) (sizeMax : Int) (c : Collected) (n : String)
    (e : Σ _ : Oid, List String) : Option Document :=
  match c.lookupBlob g n e.1 e.2 with
  | .error _ => none
  | .ok blob => if (blob.length : Int) > sizeMax then none else some ⟨n, blob, e.2⟩

section Loops

variable {g : GitWorld} {sizeMax : Int} {c : Collected}

theorem addDocs_snd_eq_none_iff {n : String} :
    ∀ {l : List (Σ _ : Oid, List String)},
      (addDocs g sizeMax c n l).2 = none ↔ ∀ e ∈ l, ∃ blob, c.lookupBlob g n e.1 e.2 = .ok blob
  | [] => by simp [addDocs]
  | ⟨sha, bs⟩ :: l => by
    simp only [addDocs, List.mem_cons, forall_eq_or_imp]
    cases h : c.lookupBlob g n sha bs with
    | error e => simp
    | ok blob =>
      dsimp only
      split_ifs <;> simp [addDocs_snd_eq_none_iff]

theorem addDocs_fst_of_snd_eq_none {n : String} :
    ∀ {l : List (Σ _ : Oid, List String)}, (addDocs g sizeMax c n l).2 = none →
      (addDocs g sizeMax c n l).1 = l.filterMap (entryDoc g sizeMax c n)
  | [], _ => rfl
  | ⟨sha, bs⟩ :: l, h => by
    simp only [addDocs] at h ⊢
    simp only [List.filterMap_cons, entryDoc]
    cases hb : c.lookupBlob g n sha bs with
    | error e => simp [hb] at h
    | ok blob =>
      simp only [hb] at h ⊢
      split_ifs at h ⊢
      · exact addDocs_fst_of_snd_eq_none h
      · simp [addDocs_fst_of_snd_eq_none h]

variable {order : RangeOrder}

theorem addNames_snd_eq_none_iff :
    ∀ {names : List String}, (addNames g order sizeMax c names).2 = none ↔
      ∀ n ∈ names, (addDocs g sizeMax c n (order.order n (c.shas n).entries)).2 = none
  | [] => by simp [addNames]
  | n :: names => by
    simp only [addNames, List.mem_cons, forall_eq_or_imp]
    rcases h : addDocs g sizeMax c n (order.order n (c.shas n).entries) with ⟨docs, _ | e⟩
    · simp [addNames_snd_eq_none_iff]
    · simp

theorem addNames_fst_of_snd_eq_none :
    ∀ {names : List String}, (addNames g order sizeMax c names).2 = none →
      (addNames g order sizeMax c names).1 =
        names.flatMap fun n ↦ (addDocs g sizeMax c n (order.order n (c.shas n).entries)).1
  | [], _ => rfl
  | n :: names, h => by
    simp only [addNames] at h ⊢
    rcases hd : addDocs g sizeMax c n (order.order n (c.shas n).entries) with ⟨docs, _ | e⟩
    · rw [hd] at h
      simp only [List.flatMap_cons, hd]
      rw [addNames_fst_of_snd_eq_none h]
    · simp [hd] at h

end Loops

theorem lookup_repos_collected_empty (rs : List BranchRead) (sha : Oid) :
    (collected rs .empty).repos.lookup sha = repoOf rs sha := by
  rw [lookup_repos_collected]
  exact Option.or_none

theorem entryDoc_collected (g : GitWorld) (sizeMax : Int) (rs : List BranchRead) (n : String)
    (sha : Oid) :
    entryDoc g sizeMax (collected rs .empty) n ⟨sha, branchesWith rs n sha⟩ =
      expectedDoc g rs sizeMax n sha := by
  simp only [entryDoc, Collected.lookupBlob, expectedDoc, lookup_repos_collected_empty]
  cases repoOf rs sha <;> rfl

theorem lookupBlob_collected_ok {g : GitWorld} {rs : List BranchRead} {n : String} {sha : Oid}
    {bs : List String} :
    (∃ blob, (collected rs .empty).lookupBlob g n sha bs = .ok blob) ↔
      ∃ r blob, repoOf rs sha = some r ∧ g.lookupBlob r sha = .ok blob := by
  simp only [Collected.lookupBlob, lookup_repos_collected_empty]
  cases repoOf rs sha <;> simp

/-! ## What `IndexGitRepo` adds -/

theorem sortStrings_keys_collected (rs : List BranchRead) :
    sortStrings (collected rs .empty).allfiles.keys = sortStrings (fileNames rs) :=
  sortStrings_eq_of_perm (keys_allfiles_perm rs)

theorem addDocs_perm {g : GitWorld} {order : RangeOrder} {sizeMax : Int} {rs : List BranchRead}
    (hsame : SameFiles rs) {n : String}
    (h : (addDocs g sizeMax (collected rs .empty) n
      (order.order n ((collected rs .empty).shas n).entries)).2 = none) :
    (addDocs g sizeMax (collected rs .empty) n
      (order.order n ((collected rs .empty).shas n).entries)).1.Perm
        ((blobIds rs n).filterMap (expectedDoc g rs sizeMax n)) := by
  rw [addDocs_fst_of_snd_eq_none h]
  have hperm := ((order.perm n _).trans (shas_entries_perm hsame n)).filterMap
    (entryDoc g sizeMax (collected rs .empty) n)
  rwa [List.filterMap_map, Function.comp_def, funext (entryDoc_collected g sizeMax rs n)] at hperm

theorem indexGitRepo_eq_ok {g : GitWorld} {order : RangeOrder} {sizeMax : Int}
    {branchPrefix : String} {branches : List String} {submodules : Bool} {opts : List Branch}
    {out : List Document × Option GoError} :
    indexGitRepo g order sizeMax branchPrefix branches submodules = .ok (opts, out) ↔
      g.openRepository = none ∧ ∃ rs, List.Forall₂ (ReadsAs g branchPrefix submodules) branches rs ∧
        g.newBuilder (rs.map BranchRead.branch) = none ∧ opts = rs.map BranchRead.branch ∧
        out = addNames g order sizeMax (collected rs .empty) (sortStrings (fileNames rs)) := by
  have hbr (rs : List BranchRead) : (collected rs .empty).branches = rs.map BranchRead.branch := by
    rw [branches_collected]
    rfl
  constructor
  · intro h
    unfold indexGitRepo at h
    split at h
    · cases h
    rename_i hopen
    split at h
    · cases h
    rename_i c hc
    split at h
    · cases h
    rename_i hb
    obtain ⟨rs, hrs, rfl⟩ := collect_eq_ok.1 hc
    simp only [Except.ok.injEq, Prod.mk.injEq] at h
    rw [hbr] at hb h
    exact ⟨hopen, rs, hrs, hb, h.1.symm, by rw [← h.2, sortStrings_keys_collected]⟩
  · rintro ⟨hopen, rs, hrs, hb, rfl, rfl⟩
    simp only [indexGitRepo, hopen, collect_eq_ok.2 ⟨rs, hrs, rfl⟩, hbr, hb,
      sortStrings_keys_collected]

theorem addNames_collected {g : GitWorld} {order : RangeOrder} {sizeMax : Int}
    {rs : List BranchRead} (hsame : SameFiles rs) {docs : List Document}
    (hout : addNames g order sizeMax (collected rs .empty) (sortStrings (fileNames rs)) =
      (docs, none)) :
    BlobsReadable g rs ∧ ∃ ds : String → List Document, docs = (sortStrings (fileNames rs)).flatMap ds ∧
      ∀ n ∈ fileNames rs, (ds n).Perm ((blobIds rs n).filterMap (expectedDoc g rs sizeMax n)) := by
  have hsnd := addNames_snd_eq_none_iff.1 (congrArg Prod.snd hout)
  refine ⟨fun n hn sha hsha ↦ ?_, _, (congrArg Prod.fst hout).symm.trans
    (addNames_fst_of_snd_eq_none (congrArg Prod.snd hout)),
    fun n hn ↦ addDocs_perm hsame (hsnd n (mem_sortStrings.2 hn))⟩
  have hmem : (⟨sha, branchesWith rs n sha⟩ : Σ _ : Oid, List String) ∈
      order.order n ((collected rs .empty).shas n).entries :=
    ((order.perm n _).trans (shas_entries_perm hsame n)).mem_iff.2 (List.mem_map.2 ⟨sha, hsha, rfl⟩)
  exact lookupBlob_collected_ok.1 (addDocs_snd_eq_none_iff.1 (hsnd n (mem_sortStrings.2 hn)) _ hmem)

/-- When `IndexGitRepo` finishes, it has read every branch argument and made the builder with
their branches; and when the arguments are indexed under distinct names, every blob the
documents call for could be read, and the documents are, name by name in `sort.Strings` order,
one for each blob id the name has in some branch and not over `SizeMax`, with the contents of
the blob and the branches that have it there, in the order `range` visits them. -/
theorem indexGitRepo_documents {g : GitWorld} {order : RangeOrder} {sizeMax : Int}
    {branchPrefix : String} {branches : List String} {submodules : Bool} {opts : List Branch}
    {docs : List Document}
    (h : indexGitRepo g order sizeMax branchPrefix branches submodules = .ok (opts, docs, none)) :
    ∃ rs, List.Forall₂ (ReadsAs g branchPrefix submodules) branches rs ∧
      opts = rs.map BranchRead.branch ∧
      ((rs.map (·.name)).Nodup → BlobsReadable g rs ∧
        ∃ ds : String → List Document, docs = (sortStrings (fileNames rs)).flatMap ds ∧
          ∀ n ∈ fileNames rs, (ds n).Perm ((blobIds rs n).filterMap (expectedDoc g rs sizeMax n))) := by
  obtain ⟨-, rs, hrs, -, rfl, hout⟩ := indexGitRepo_eq_ok.1 h
  exact ⟨rs, hrs, rfl, fun hnd ↦ addNames_collected (sameFiles_of_nodup hnd) hout.symm⟩

def RangeOrder.stored : RangeOrder := ⟨fun _ l ↦ l, fun _ _ ↦ List.Perm.refl _⟩

def mainTree : TreeFiles :=
  ⟨(∅ : AList fun _ : String ↦ Oid).insert "a" 7 |>.insert "b" 8,
    (∅ : AList fun _ : Oid ↦ Nat).insert 7 0 |>.insert 8 0⟩

def devTree : TreeFiles :=
  ⟨(∅ : AList fun _ : String ↦ Oid).insert "a" 7, (∅ : AList fun _ : Oid ↦ Nat).insert 7 0⟩

/-- A repository whose `HEAD` is `refs/heads/main`, with a branch `dev`; `a` has two bytes and
`b` three. -/
def mainDevWorld : GitWorld where
  openRepository := none
  revparseExt _ := .ok "refs/heads/main"
  getCommit ref := .ok (if ref = "refs/heads/main" then 1 else 2)
  treeToFiles commit _ := .ok (if commit = 1 then mainTree else devTree)
  newBuilder _ := none
  lookupBlob _ sha := .ok (if sha = 7 then [104, 105] else [1, 2, 3])

theorem indexGitRepo_documents_of_main_dev :
    indexGitRepo mainDevWorld .stored 2 "refs/heads/" ["HEAD", "dev"] false =
        .ok ([⟨"main", (1 : Oid).toHex⟩, ⟨"dev", (2 : Oid).toHex⟩],
          [⟨"a", [104, 105], ["main", "dev"]⟩], none) ∧
      ∃ rs, List.Forall₂ (ReadsAs mainDevWorld "refs/heads/" false) ["HEAD", "dev"] rs ∧
        [⟨"main", (1 : Oid).toHex⟩, ⟨"dev", (2 : Oid).toHex⟩] = rs.map BranchRead.branch ∧
        ((rs.map (·.name)).Nodup → BlobsReadable mainDevWorld rs ∧
          ∃ ds : String → List Document,
            [⟨"a", [104, 105], ["main", "dev"]⟩] = (sortStrings (fileNames rs)).flatMap ds ∧
            ∀ n ∈ fileNames rs,
              (ds n).Perm ((blobIds rs n).filterMap (expectedDoc mainDevWorld rs 2 n))) :=
  have h : indexGitRepo mainDevWorld .stored 2 "refs/heads/" ["HEAD", "dev"] false =
      .ok ([⟨"main", (1 : Oid).toHex⟩, ⟨"dev", (2 : Oid).toHex⟩],
        [⟨"a", [104, 105], ["main", "dev"]⟩], none) := rfl
  ⟨h, indexGitRepo_documents h⟩

/-- With the branch arguments read under distinct names, `IndexGitRepo` finishes whenever it
opens the repository, makes the builder, and can read every blob the documents call for. -/
theorem indexGitRepo_finishes {g : GitWorld} {order : RangeOrder} {sizeMax : Int}
    {branchPrefix : String} {branches : List String} {submodules : Bool} {rs : List BranchRead}
    (hreads : List.Forall₂ (ReadsAs g branchPrefix submodules) branches rs)
    (hnd : (rs.map (·.name)).Nodup) (hopen : g.openRepository = none)
    (hbuilder : g.newBuilder (rs.map BranchRead.branch) = none) (hblobs : BlobsReadable g rs) :
    ∃ docs, indexGitRepo g order sizeMax branchPrefix branches submodules =
      .ok (rs.map BranchRead.branch, docs, none) := by
  have hsnd : (addNames g order sizeMax (collected rs .empty) (sortStrings (fileNames rs))).2 =
      none := by
    refine addNames_snd_eq_none_iff.2 fun n hn ↦ addDocs_snd_eq_none_iff.2 fun e he ↦ ?_
    obtain ⟨sha, hsha, rfl⟩ :=
      List.mem_map.1 (((order.perm n _).trans (shas_entries_perm (sameFiles_of_nodup hnd) n)).mem_iff.1 he)
    exact lookupBlob_collected_ok.2 (hblobs n (mem_sortStrings.1 hn) sha hsha)
  exact ⟨_, indexGitRepo_eq_ok.2 ⟨hopen, rs, hreads, hbuilder, rfl, Prod.ext rfl hsnd.symm⟩⟩

def mainDevReads : List BranchRead := [⟨"main", 1, mainTree⟩, ⟨"dev", 2, devTree⟩]

theorem indexGitRepo_finishes_of_main_dev :
    List.Forall₂ (ReadsAs mainDevWorld "refs/heads/" false) ["HEAD", "dev"] mainDevReads ∧
      (mainDevReads.map (·.name)).Nodup ∧ mainDevWorld.openRepository = none ∧
      mainDevWorld.newBuilder (mainDevReads.map BranchRead.branch) = none ∧
      BlobsReadable mainDevWorld mainDevReads ∧
      ∃ docs, indexGitRepo mainDevWorld .stored 2 "refs/heads/" ["HEAD", "dev"] false =
        .ok (mainDevReads.map BranchRead.branch, docs, none) :=
  have hreads : List.Forall₂ (ReadsAs mainDevWorld "refs/heads/" false) ["HEAD", "dev"]
      mainDevReads :=
    .cons ⟨_, rfl, rfl, rfl⟩ (.cons ⟨_, rfl, rfl, rfl⟩ .nil)
  have hnd : (mainDevReads.map (·.name)).Nodup := by decide
  have hblobs : BlobsReadable mainDevWorld mainDevReads := by
    intro n hn sha hsha
    rw [show fileNames mainDevReads = ["b", "a"] by decide, List.mem_cons, List.mem_singleton] at hn
    rcases hn with rfl | rfl
    · rw [show blobIds mainDevReads "b" = [8] by decide, List.mem_singleton] at hsha
      subst hsha
      exact ⟨0, _, by decide, rfl⟩
    · rw [show blobIds mainDevReads "a" = [7] by decide, List.mem_singleton] at hsha
      subst hsha
      exact ⟨0, _, by decide, rfl⟩
  ⟨hreads, hnd, rfl, rfl, hblobs, indexGitRepo_finishes hreads hnd rfl rfl hblobs⟩

/-! ## Each file of each branch in one document -/

theorem flatMap_eq_of_forall_ne {α β : Type} [DecidableEq α] (g : α → List β) (a : α) :
    ∀ {l : List α}, l.Nodup → (∀ b ∈ l, b ≠ a → g b = []) →
      l.flatMap g = if a ∈ l then g a else []
  | [], _, _ => rfl
  | b :: l, hl, hg => by
    rw [List.nodup_cons] at hl
    rw [List.flatMap_cons,
      flatMap_eq_of_forall_ne g a hl.2 fun c hc ↦ hg c (List.mem_cons_of_mem _ hc)]
    by_cases hb : b = a
    · subst hb
      simp [hl.1]
    · simp [hg b (List.mem_cons_self _ _) hb, Ne.symm hb]

theorem mem_branchesWith {rs : List BranchRead} (hnd : (rs.map (·.name)).Nodup) {r : BranchRead}
    (hr : r ∈ rs) (n : String) (sha : Oid) :
    r.name ∈ branchesWith rs n sha ↔ r.tree.files.lookup n = some sha := by
  simp only [branchesWith, List.mem_map, List.mem_filter, decide_eq_true_eq]
  constructor
  · rintro ⟨r', ⟨hr', hl⟩, hname⟩
    rwa [← List.inj_on_of_nodup_map hnd hr' hr hname]
  · exact fun h ↦ ⟨r, ⟨hr, h⟩, rfl⟩

theorem expectedDoc_eq_some {g : GitWorld} {rs : List BranchRead} {sizeMax : Int} {n : String}
    {sha : Oid} {d : Document} (hnd : (rs.map (·.name)).Nodup) {r : BranchRead} (hr : r ∈ rs)
    (h : expectedDoc g rs sizeMax n sha = some d) :
    d.name = n ∧ (r.name ∈ d.branches ↔ r.tree.files.lookup n = some sha) := by
  unfold expectedDoc at h
  split at h
  · cases h
  split at h
  · cases h
  split_ifs at h
  cases h
  exact ⟨rfl, mem_branchesWith hnd hr n sha⟩

theorem filter_expectedDoc {g : GitWorld} {rs : List BranchRead} {sizeMax : Int}
    (hnd : (rs.map (·.name)).Nodup) {r : BranchRead} (hr : r ∈ rs) (n n' : String) (sha : Oid) :
    (expectedDoc g rs sizeMax n' sha).filter (fun d ↦ d.name = n ∧ r.name ∈ d.branches) =
      if n' = n ∧ r.tree.files.lookup n = some sha then expectedDoc g rs sizeMax n' sha
      else none := by
  cases hd : expectedDoc g rs sizeMax n' sha with
  | none => simp
  | some d =>
    obtain ⟨rfl, hmem⟩ := expectedDoc_eq_some hnd hr hd
    by_cases hn : d.name = n
    · subst hn
      simp [Option.filter_some, hmem]
    · simp [Option.filter_some, hn]

theorem filter_expectedDocs {g : GitWorld} {rs : List BranchRead} {sizeMax : Int}
    (hnd : (rs.map (·.name)).Nodup) {r : BranchRead} (hr : r ∈ rs) (n n' : String) :
    ((blobIds rs n').filterMap (expectedDoc g rs sizeMax n')).filter
        (fun d ↦ d.name = n ∧ r.name ∈ d.branches) =
      if n' = n then ((r.tree.files.lookup n).bind (expectedDoc g rs sizeMax n)).toList
      else [] := by
  rw [List.filter_filterMap]
  simp only [filter_expectedDoc hnd hr n n']
  by_cases hn : n' = n
  · subst hn
    cases hl : r.tree.files.lookup n' with
    | none => simp
    | some sha =>
      rw [List.filterMap_eq_flatMap_toList, flatMap_eq_of_forall_ne _ sha
        (show (blobIds rs n').Nodup from List.nodup_dedup _)]
      · simp [mem_blobIds.2 ⟨r, hr, hl⟩]
      · intro x _ hx
        simp [Ne.symm hx]
  · simp [hn]

/-- When `IndexGitRepo` finishes with the branch arguments read under distinct names, the
documents named `n` that list a branch read are exactly one when the branch has `n` and the blob
it has there is not over `SizeMax`, the document `expectedDoc` gives for that blob, and none
otherwise. -/
theorem indexGitRepo_indexes_each_file_once {g : GitWorld} {order : RangeOrder} {sizeMax : Int}
    {branchPrefix : String} {branches : List String} {submodules : Bool} {opts : List Branch}
    {docs : List Document}
    (h : indexGitRepo g order sizeMax branchPrefix branches submodules = .ok (opts, docs, none)) :
    ∃ rs, List.Forall₂ (ReadsAs g branchPrefix submodules) branches rs ∧
      ((rs.map (·.name)).Nodup → ∀ r ∈ rs, ∀ n : String,
        docs.filter (fun d ↦ d.name = n ∧ r.name ∈ d.branches) =
          ((r.tree.files.lookup n).bind (expectedDoc g rs sizeMax n)).toList) := by
  obtain ⟨-, rs, hrs, -, -, hout⟩ := indexGitRepo_eq_ok.1 h
  refine ⟨rs, hrs, fun hnd r hr n ↦ ?_⟩
  obtain ⟨-, ds, rfl, hds⟩ := addNames_collected (sameFiles_of_nodup hnd) hout.symm
  have hname : ∀ n' ∈ sortStrings (fileNames rs),
      (ds n').filter (fun d ↦ d.name = n ∧ r.name ∈ d.branches) =
        if n' = n then ((r.tree.files.lookup n).bind (expectedDoc g rs sizeMax n)).toList
        else [] := by
    intro n' hn'
    have hp := (hds n' (mem_sortStrings.1 hn')).filter
      (fun d ↦ d.name = n ∧ r.name ∈ d.branches)
    rw [filter_expectedDocs hnd hr n n'] at hp
    split_ifs at hp ⊢
    · cases hx : (r.tree.files.lookup n).bind (expectedDoc g rs sizeMax n) <;> simpa [hx] using hp
    · exact List.perm_nil.1 hp
  have hsorted : (sortStrings (fileNames rs)).Nodup :=
    (List.perm_insertionSort _ (fileNames rs)).nodup_iff.2 (List.nodup_dedup _)
  rw [List.filter_flatMap, flatMap_eq_of_forall_ne _ n hsorted fun n' hn' hne ↦ by
    rw [hname n' hn', if_neg hne]]
  split_ifs with hn
  · rw [hname n hn, if_pos rfl]
  · have hl : r.tree.files.lookup n = none :=
      AList.lookup_eq_none.2 fun hmem ↦ hn (mem_sortStrings.2 (mem_fileNames.2 ⟨r, hr, hmem⟩))
    rw [hl]
    rfl

theorem indexGitRepo_indexes_each_file_once_of_main_dev :
    indexGitRepo mainDevWorld .stored 2 "refs/heads/" ["HEAD", "dev"] false =
        .ok ([⟨"main", (1 : Oid).toHex⟩, ⟨"dev", (2 : Oid).toHex⟩],
          [⟨"a", [104, 105], ["main", "dev"]⟩], none) ∧
      ∃ rs, List.Forall₂ (ReadsAs mainDevWorld "refs/heads/" false) ["HEAD", "dev"] rs ∧
        ((rs.map (·.name)).Nodup → ∀ r ∈ rs, ∀ n : String,
          [(⟨"a", [104, 105], ["main", "dev"]⟩ : Document)].filter
              (fun d ↦ d.name = n ∧ r.name ∈ d.branches) =
            ((r.tree.files.lookup n).bind (expectedDoc mainDevWorld rs 2 n)).toList) :=
  have h : indexGitRepo mainDevWorld .stored 2 "refs/heads/" ["HEAD", "dev"] false =
      .ok ([⟨"main", (1 : Oid).toHex⟩, ⟨"dev", (2 : Oid).toHex⟩],
        [⟨"a", [104, 105], ["main", "dev"]⟩], none) := rfl
  ⟨h, indexGitRepo_indexes_each_file_once h⟩

/-! ## Branches read under one name -/

theorem expectedDoc_fields {g : GitWorld} {rs : List BranchRead} {sizeMax : Int} {n : String}
    {sha : Oid} {d : Document} (h : expectedDoc g rs sizeMax n sha = some d) :
    d.name = n ∧ d.branches = branchesWith rs n sha := by
  unfold expectedDoc at h
  split at h
  · cases h
  split at h
  · cases h
  split_ifs at h
  cases h
  exact ⟨rfl, rfl⟩

/-- `IndexGitRepo` keeps one entry per branch argument: whenever it returns nil, it made the builder
with one `build.Branch` per argument read; and when the branches read under one name have the same
files, as `HEAD` and the branch it points to have, each document it added lists a branch name once
for every argument read under that name whose tree has the document's blob at its name. -/
theorem indexGitRepo_lists_branch_per_argument {g : GitWorld} {order : RangeOrder}
    {sizeMax : Int} {branchPrefix : String} {branches : List String} {submodules : Bool}
    {opts : List Branch} {docs : List Document}
    (h : indexGitRepo g order sizeMax branchPrefix branches submodules = .ok (opts, docs, none)) :
    ∃ rs, List.Forall₂ (ReadsAs g branchPrefix submodules) branches rs ∧
      opts = rs.map BranchRead.branch ∧
      (SameFiles rs → ∀ d ∈ docs, ∃ sha, ∀ b, d.branches.count b =
        (rs.filter fun r ↦ r.name = b ∧ r.tree.files.lookup d.name = some sha).length) := by
  obtain ⟨-, rs, hrs, -, rfl, hout⟩ := indexGitRepo_eq_ok.1 h
  refine ⟨rs, hrs, rfl, fun hsame d hd ↦ ?_⟩
  obtain ⟨-, ds, rfl, hds⟩ := addNames_collected hsame hout.symm
  obtain ⟨n, hn, hdn⟩ := List.mem_flatMap.1 hd
  obtain ⟨sha, -, hsha⟩ := List.mem_filterMap.1 ((hds n (mem_sortStrings.1 hn)).mem_iff.1 hdn)
  obtain ⟨rfl, hbr⟩ := expectedDoc_fields hsha
  refine ⟨sha, fun b ↦ ?_⟩
  rw [hbr, branchesWith, List.count, List.countP_map, List.countP_filter,
    List.countP_eq_length_filter]
  simp only [Function.comp_def, Bool.beq_eq_decide_eq, Bool.decide_and]

theorem indexGitRepo_lists_branch_per_argument_of_head_main :
    indexGitRepo mainDevWorld .stored 2 "refs/heads/" ["HEAD", "main"] false =
        .ok ([⟨"main", (1 : Oid).toHex⟩, ⟨"main", (1 : Oid).toHex⟩],
          [⟨"a", [104, 105], ["main", "main"]⟩], none) ∧
      ∃ rs, List.Forall₂ (ReadsAs mainDevWorld "refs/heads/" false) ["HEAD", "main"] rs ∧
        [⟨"main", (1 : Oid).toHex⟩, ⟨"main", (1 : Oid).toHex⟩] = rs.map BranchRead.branch ∧
        (SameFiles rs → ∀ d ∈ [(⟨"a", [104, 105], ["main", "main"]⟩ : Document)], ∃ sha, ∀ b,
          d.branches.count b =
            (rs.filter fun r ↦ r.name = b ∧ r.tree.files.lookup d.name = some sha).length) :=
  have h : indexGitRepo mainDevWorld .stored 2 "refs/heads/" ["HEAD", "main"] false =
      .ok ([⟨"main", (1 : Oid).toHex⟩, ⟨"main", (1 : Oid).toHex⟩],
        [⟨"a", [104, 105], ["main", "main"]⟩], none) := rfl
  ⟨h, indexGitRepo_lists_branch_per_argument h⟩

/-! ## Where `IndexGitRepo` fails -/

section Errors

variable {g : GitWorld} {sizeMax : Int} {c : Collected}

theorem addDocs_snd_eq_some {n : String} {err : GoError} :
    ∀ {l : List (Σ _ : Oid, List String)}, (addDocs g sizeMax c n l).2 = some err →
      ∃ e ∈ l, c.lookupBlob g n e.1 e.2 = .error err
  | [], h => by cases h
  | ⟨sha, bs⟩ :: l, h => by
    simp only [addDocs] at h
    cases hb : c.lookupBlob g n sha bs with
    | error e =>
      rw [hb] at h
      cases h
      exact ⟨_, List.mem_cons_self _ _, hb⟩
    | ok blob =>
      rw [hb] at h
      dsimp only at h
      obtain ⟨e, he, hl⟩ : ∃ e ∈ l, c.lookupBlob g n e.1 e.2 = .error err := by
        split_ifs at h
        · exact addDocs_snd_eq_some h
        · exact addDocs_snd_eq_some h
      exact ⟨e, List.mem_cons_of_mem _ he, hl⟩

theorem mem_addDocs_fst {n : String} {d : Document} :
    ∀ {l : List (Σ _ : Oid, List String)}, d ∈ (addDocs g sizeMax c n l).1 →
      ∃ e ∈ l, entryDoc g sizeMax c n e = some d
  | [], h => by cases h
  | ⟨sha, bs⟩ :: l, h => by
    simp only [addDocs] at h
    cases hb : c.lookupBlob g n sha bs with
    | error e =>
      rw [hb] at h
      cases h
    | ok blob =>
      rw [hb] at h
      dsimp only at h
      split_ifs at h with hbig
      · obtain ⟨e, he, hd⟩ := mem_addDocs_fst h
        exact ⟨e, List.mem_cons_of_mem _ he, hd⟩
      · rcases List.mem_cons.1 h with rfl | h
        · exact ⟨_, List.mem_cons_self _ _, by simp [entryDoc, hb, hbig]⟩
        · obtain ⟨e, he, hd⟩ := mem_addDocs_fst h
          exact ⟨e, List.mem_cons_of_mem _ he, hd⟩

variable {order : RangeOrder}

theorem addNames_snd_eq_some {err : GoError} :
    ∀ {names : List String}, (addNames g order sizeMax c names).2 = some err →
      ∃ n ∈ names, (addDocs g sizeMax c n (order.order n (c.shas n).entries)).2 = some err
  | [], h => by cases h
  | n :: names, h => by
    simp only [addNames] at h
    rcases hd : addDocs g sizeMax c n (order.order n (c.shas n).entries) with ⟨docs, _ | e⟩
    · rw [hd] at h
      obtain ⟨n', hn', h'⟩ := addNames_snd_eq_some h
      exact ⟨n', List.mem_cons_of_mem _ hn', h'⟩
    · rw [hd] at h
      cases h
      exact ⟨n, List.mem_cons_self _ _, by rw [hd]⟩

theorem mem_addNames_fst {d : Document} :
    ∀ {names : List String}, d ∈ (addNames g order sizeMax c names).1 →
      ∃ n ∈ names, ∃ e ∈ order.order n (c.shas n).entries, entryDoc g sizeMax c n e = some d
  | [], h => by cases h
  | n :: names, h => by
    simp only [addNames] at h
    rcases hd : addDocs g sizeMax c n (order.order n (c.shas n).entries) with ⟨docs, _ | e⟩ <;>
      rw [hd] at h
    · rcases List.mem_append.1 h with h | h
      · obtain ⟨e, he, hdoc⟩ := mem_addDocs_fst (show d ∈ (addDocs g sizeMax c n _).1 by rw [hd]; exact h)
        exact ⟨n, List.mem_cons_self _ _, e, he, hdoc⟩
      · obtain ⟨n', hn', e, he, hdoc⟩ := mem_addNames_fst h
        exact ⟨n', List.mem_cons_of_mem _ hn', e, he, hdoc⟩
    · obtain ⟨e, he, hdoc⟩ := mem_addDocs_fst (show d ∈ (addDocs g sizeMax c n _).1 by rw [hd]; exact h)
      exact ⟨n, List.mem_cons_self _ _, e, he, hdoc⟩

end Errors

theorem lookupBlob_collected_error {g : GitWorld} {rs : List BranchRead} {n : String} {sha : Oid}
    {bs : List String} {err : GoError} :
    (collected rs .empty).lookupBlob g n sha bs = .error err ↔
      (repoOf rs sha = none ∧
        err = .other ("no repo found for " ++ n ++ " (" ++ fmtStrings bs ++ ")")) ∨
      ∃ r, repoOf rs sha = some r ∧ g.lookupBlob r sha = .error err := by
  simp only [Collected.lookupBlob, lookup_repos_collected_empty]
  cases repoOf rs sha <;> simp [eq_comm]

/-- When `IndexGitRepo` fails after making the builder, with the branch arguments read under
distinct names, it failed on a blob that some branch has at a file: no repository is recorded
for the blob, and the error names the file and the branches that have the blob there, or the
recorded repository could not read it. Every document it added before is one `expectedDoc`
gives. -/
theorem indexGitRepo_fails_only_on_unreadable_blob {g : GitWorld} {order : RangeOrder}
    {sizeMax : Int} {branchPrefix : String} {branches : List String} {submodules : Bool}
    {opts : List Branch} {docs : List Document} {err : GoError}
    (h : indexGitRepo g order sizeMax branchPrefix branches submodules =
      .ok (opts, docs, some err)) :
    ∃ rs, List.Forall₂ (ReadsAs g branchPrefix submodules) branches rs ∧
      opts = rs.map BranchRead.branch ∧
      ((rs.map (·.name)).Nodup →
        (∃ n ∈ fileNames rs, ∃ sha ∈ blobIds rs n,
          (repoOf rs sha = none ∧ err = .other ("no repo found for " ++ n ++ " (" ++
            fmtStrings (branchesWith rs n sha) ++ ")")) ∨
          ∃ r, repoOf rs sha = some r ∧ g.lookupBlob r sha = .error err) ∧
        ∀ d ∈ docs, ∃ n ∈ fileNames rs, ∃ sha ∈ blobIds rs n,
          expectedDoc g rs sizeMax n sha = some d) := by
  obtain ⟨-, rs, hrs, -, rfl, hout⟩ := indexGitRepo_eq_ok.1 h
  refine ⟨rs, hrs, rfl, fun hnd ↦ ⟨?_, fun d hd ↦ ?_⟩⟩
  · obtain ⟨n, hn, hdocs⟩ := addNames_snd_eq_some (congrArg Prod.snd hout).symm
    obtain ⟨e, he, hl⟩ := addDocs_snd_eq_some hdocs
    obtain ⟨sha, hsha, rfl⟩ :=
      List.mem_map.1 (((order.perm n _).trans (shas_entries_perm (sameFiles_of_nodup hnd) n)).mem_iff.1 he)
    exact ⟨n, mem_sortStrings.1 hn, sha, hsha, lookupBlob_collected_error.1 hl⟩
  · have hfst : docs = _ := congrArg Prod.fst hout
    obtain ⟨n, hn, e, he, hdoc⟩ := mem_addNames_fst (hfst ▸ hd)
    obtain ⟨sha, hsha, rfl⟩ :=
      List.mem_map.1 (((order.perm n _).trans (shas_entries_perm (sameFiles_of_nodup hnd) n)).mem_iff.1 he)
    exact ⟨n, mem_sortStrings.1 hn, sha, hsha, entryDoc_collected g sizeMax rs n sha ▸ hdoc⟩

def orphanTree : TreeFiles :=
  ⟨(∅ : AList fun _ : String ↦ Oid).insert "a" 7 |>.insert "b" 8,
    (∅ : AList fun _ : Oid ↦ Nat).insert 7 0⟩

/-- A repository with one branch `main` whose `b` has no recorded repository. -/
def orphanBlobWorld : GitWorld :=
  { mainDevWorld with
    getCommit := fun _ ↦ .ok 1
    treeToFiles := fun _ _ ↦ .ok orphanTree }

theorem indexGitRepo_fails_only_on_unreadable_blob_of_orphan :
    indexGitRepo orphanBlobWorld .stored 2 "refs/heads/" ["main"] false =
        .ok ([⟨"main", (1 : Oid).toHex⟩], [⟨"a", [104, 105], ["main"]⟩],
          some (.other "no repo found for b ([main])")) ∧
      ∃ rs, List.Forall₂ (ReadsAs orphanBlobWorld "refs/heads/" false) ["main"] rs ∧
        [⟨"main", (1 : Oid).toHex⟩] = rs.map BranchRead.branch ∧
        ((rs.map (·.name)).Nodup →
          (∃ n ∈ fileNames rs, ∃ sha ∈ blobIds rs n,
            (repoOf rs sha = none ∧ GoError.other "no repo found for b ([main])" =
              .other ("no repo found for " ++ n ++ " (" ++ fmtStrings (branchesWith rs n sha) ++ ")")) ∨
            ∃ r, repoOf rs sha = some r ∧
              orphanBlobWorld.lookupBlob r sha = .error (.other "no repo found for b ([main])")) ∧
          ∀ d ∈ [(⟨"a", [104, 105], ["main"]⟩ : Document)], ∃ n ∈ fileNames rs, ∃ sha ∈ blobIds rs n,
            expectedDoc orphanBlobWorld rs 2 n sha = some d) :=
  have h : indexGitRepo orphanBlobWorld .stored 2 "refs/heads/" ["main"] false =
      .ok ([⟨"main", (1 : Oid).toHex⟩], [⟨"a", [104, 105], ["main"]⟩],
        some (.other "no repo found for b ([main])")) := rfl
  ⟨h, indexGitRepo_fails_only_on_unreadable_blob h⟩

end Zoekt.Gitindex
