import CallGraph.Files.Tree
import Mathlib.Data.List.Induction

/-!
# Walks of a file tree

A walk has fuel for each of its steps, and a look-up gives it enough.  `Walks` says on which ways a walk ends at all,
whatever fuel it has: what a look-up finds is where such a way ends, and there is one way at most.  So what look-ups
find is shown by induction on ways, with a case for each thing that a step can come to.
-/

namespace CallGraph.FileTree

/-- The ways on which walks end, step by step and whatever fuel they have. -/
inductive Walks (t : FileTree) (follow : Bool) : Nat → List String → List Step → Found → Prop where
  | here {links : Nat} {place : List String} : Walks t follow links place [] (.present place .directory)
  | up {links : Nat} {place : List String} {rest : List Step} {found : Found}
      (next : Walks t follow links place.dropLast rest found) : Walks t follow links place (.up :: rest) found
  | demandDirectory {links : Nat} {place : List String} {rest : List Step} {found : Found}
      (next : Walks t follow links place rest found) : Walks t follow links place (.demandDirectory :: rest) found
  | free {links : Nat} {place : List String} {name : String} {rest : List Step}
      (entry : t.entry? (place ++ [name]) = none) (last : rest = [] ∨ rest = [.demandDirectory]) :
      Walks t follow links place (.enter name :: rest) (.absent (place ++ [name]))
  | directory {links : Nat} {place : List String} {name : String} {rest : List Step} {found : Found}
      (entry : t.entry? (place ++ [name]) = some .directory)
      (next : Walks t follow links (place ++ [name]) rest found) :
      Walks t follow links place (.enter name :: rest) found
  | file {links : Nat} {place : List String} {name : String} {octets : ByteArray} {modified : Nat}
      (entry : t.entry? (place ++ [name]) = some (.file octets modified)) :
      Walks t follow links place [.enter name] (.present (place ++ [name]) (.file octets modified))
  | kept {links : Nat} {place : List String} {name target : String}
      (entry : t.entry? (place ++ [name]) = some (.link target)) (keeps : follow = false) :
      Walks t follow links place [.enter name] (.present (place ++ [name]) (.link target))
  | link {links : Nat} {place : List String} {name target : String} {rest : List Step} {found : Found}
      (entry : t.entry? (place ++ [name]) = some (.link target)) (follows : rest = [] → follow = true)
      (next : Walks t follow links (if target.toList.head? == some '/' then [] else place)
        (stepsOf target ++ rest) found) :
      Walks t follow (links + 1) place (.enter name :: rest) found

/-- A walk that ends goes such a way. -/
theorem walks_of_walk {t : FileTree} {follow : Bool} {fuel links : Nat} {place : List String} {steps : List Step}
    {found : Found} (h : t.walk follow fuel links place steps = .ok found) :
  t.Walks follow links place steps found
  := by
  induction fuel generalizing links place steps with
  | zero => cases h
  | succ fuel ih =>
    rw [walk.eq_def] at h
    dsimp only at h
    cases steps with
    | nil =>
      cases h
      exact .here
    | cons step rest =>
      cases step with
      | up => exact .up (ih h)
      | demandDirectory => exact .demandDirectory (ih h)
      | enter name =>
        dsimp only at h
        cases hentry : t.entry? (place ++ [name]) with
        | none =>
          rw [hentry] at h
          dsimp only at h
          split at h
          · rename_i hlast
            cases h
            exact .free hentry (by simpa using hlast)
          · cases h
        | some entry =>
          rw [hentry] at h
          cases entry with
          | directory => exact .directory hentry (ih h)
          | file octets modified =>
            dsimp only at h
            split at h
            · rename_i hlast
              cases h
              obtain rfl := beq_iff_eq.mp hlast
              exact .file hentry
            · cases h
          | link target =>
            dsimp only at h
            split at h
            · rename_i hlast
              cases h
              rw [Bool.and_eq_true, beq_iff_eq, Bool.not_eq_true'] at hlast
              obtain ⟨rfl, hkeeps⟩ := hlast
              exact .kept hentry hkeeps
            · rename_i hlast
              cases links with
              | zero => cases h
              | succ links => exact .link hentry (fun hnil => by simpa [hnil] using hlast) (ih h)

/-- No link of a tree asks for more than some number of steps. -/
def LinksWithin (t : FileTree) (bound : Nat) : Prop :=
  ∀ place target, t.entry? place = some (.link target) → (stepsOf target).length ≤ bound

/-- With fuel enough, a walk ends as its way does. -/
theorem Walks.walk {t : FileTree} {bound : Nat} (hbound : t.LinksWithin bound) {follow : Bool} {links fuel : Nat}
    {place : List String} {steps : List Step} {found : Found} (h : t.Walks follow links place steps found)
    (hfuel : steps.length + links * (bound + 1) ≤ fuel) :
  t.walk follow (fuel + 1) links place steps = .ok found
  := by
  induction h generalizing fuel with
  | here => rfl
  | up _ ih =>
    obtain ⟨fuel, rfl⟩ := Nat.exists_eq_add_one_of_ne_zero (n := fuel) (by rw [List.length_cons] at hfuel; omega)
    exact ih (by rw [List.length_cons] at hfuel; omega)
  | demandDirectory _ ih =>
    obtain ⟨fuel, rfl⟩ := Nat.exists_eq_add_one_of_ne_zero (n := fuel) (by rw [List.length_cons] at hfuel; omega)
    exact ih (by rw [List.length_cons] at hfuel; omega)
  | free entry last =>
    rw [FileTree.walk]
    dsimp only
    rw [entry]
    exact if_pos (by simpa using last)
  | directory entry _ ih =>
    obtain ⟨fuel, rfl⟩ := Nat.exists_eq_add_one_of_ne_zero (n := fuel) (by rw [List.length_cons] at hfuel; omega)
    rw [FileTree.walk]
    dsimp only
    rw [entry]
    exact ih (by rw [List.length_cons] at hfuel; omega)
  | file entry =>
    rw [FileTree.walk]
    dsimp only
    rw [entry]
    rfl
  | kept entry keeps =>
    rw [FileTree.walk]
    dsimp only
    rw [entry, keeps]
    rfl
  | @link links place name target rest found entry follows _ ih =>
    have hmore : (stepsOf target ++ rest).length + links * (bound + 1) + 1 ≤ fuel := by
      have htarget := hbound _ _ entry
      rw [List.length_cons, Nat.succ_mul] at hfuel
      rw [List.length_append]
      omega
    obtain ⟨fuel, rfl⟩ := Nat.exists_eq_add_one_of_ne_zero (Nat.ne_zero_of_lt hmore)
    have hlast : ¬ (rest == [] && !follow) = true := by
      rw [Bool.and_eq_true, beq_iff_eq, Bool.not_eq_true']
      rintro ⟨hnil, hkeeps⟩
      rw [follows hnil] at hkeeps
      cases hkeeps
    rw [FileTree.walk]
    dsimp only
    rw [entry]
    dsimp only
    rw [if_neg hlast]
    exact ih (Nat.le_of_succ_le_succ hmore)

/-- What stands at a place is the root or among the entries. -/
theorem mem_entries {t : FileTree} {place : List String} {entry : Entry} (h : t.entry? place = some entry) :
  place = [] ∨ (place, entry) ∈ t.entries
  := by
  cases place with
  | nil => exact .inl rfl
  | cons name names =>
    obtain ⟨before, after, heq, -⟩ := List.lookup_eq_some_iff.mp h
    rw [heq]
    simp

/-- How many steps an entry adds to a walk that follows it. -/
def Entry.reach : Entry → Nat
  | .link target => (stepsOf target).length
  | _ => 0

/-- The links of a tree are within some bound for which look-ups have fuel enough. -/
theorem exists_linksWithin (t : FileTree) :
  ∃ bound, t.LinksWithin bound ∧ ∀ p : Path, p.spelling.toList.any (·.toNat == 0) = false →
    p.spelling.isEmpty = false → ∀ follow, t.find p follow =
      t.walk follow ((stepsOf p.spelling).length + 41 * (bound + 1) + 1) 40
        (if p.isAbsolute then [] else t.workingDirectory) (stepsOf p.spelling)
  := by
  let lengths := t.entries.map fun e => e.2.reach
  have hbound : ∀ (ns : List Nat) (start : Nat), start ≤ ns.foldl max start ∧ ∀ n ∈ ns, n ≤ ns.foldl max start := by
    intro ns
    induction ns with
    | nil => exact fun start => ⟨Nat.le_refl _, List.forall_mem_nil _⟩
    | cons n ns ih =>
      intro start
      obtain ⟨hstart, hns⟩ := ih (max start n)
      rw [List.foldl_cons, List.forall_mem_cons]
      exact ⟨Nat.le_trans (Nat.le_max_left _ _) hstart, Nat.le_trans (Nat.le_max_right _ _) hstart, hns⟩
  refine ⟨lengths.foldl max 0, ?_, ?_⟩
  · intro place target hentry
    have hmem : (place, Entry.link target) ∈ t.entries := by
      apply (mem_entries hentry).resolve_left
      rintro rfl
      cases hentry
    exact (hbound lengths 0).2 _ (List.mem_map.mpr ⟨_, hmem, rfl⟩)
  · intro p hname hempty follow
    rw [find, hname, hempty]
    rfl

/-- Where the steps of a path start. -/
def origin (t : FileTree) (p : Path) : List String :=
  if p.isAbsolute then [] else t.workingDirectory

/-- Only paths without NUL characters that are not empty are looked up. -/
theorem spelled_of_find {t : FileTree} {p : Path} {follow : Bool} {found : Found} (h : t.find p follow = .ok found) :
  p.spelling.toList.any (·.toNat == 0) = false ∧ p.spelling.isEmpty = false
  := by
  unfold find at h
  split at h
  · cases h
  · rename_i hspelled
    split at h
    · cases h
    · rename_i hempty
      exact ⟨(Bool.not_eq_true _).mp hspelled, (Bool.not_eq_true _).mp hempty⟩

/-- What is found is where the way of the path ends. -/
theorem find_eq_ok_iff {t : FileTree} {p : Path} {follow : Bool} {found : Found} :
  t.find p follow = .ok found ↔ p.spelling.toList.any (·.toNat == 0) = false ∧ p.spelling.isEmpty = false ∧
    t.Walks follow 40 (t.origin p) (stepsOf p.spelling) found
  := by
  obtain ⟨bound, hbound, hfind⟩ := t.exists_linksWithin
  constructor
  · intro h
    obtain ⟨hspelled, hempty⟩ := spelled_of_find h
    rw [hfind p hspelled hempty] at h
    exact ⟨hspelled, hempty, walks_of_walk h⟩
  · rintro ⟨hspelled, hempty, hwalks⟩
    rw [hfind p hspelled hempty]
    exact hwalks.walk hbound (by omega)

namespace Walks

variable {t : FileTree} {follow : Bool} {links : Nat} {place found : List String} {steps more : List Step}
  {entry : Entry} {ending ending' : Found}

/-- There is one way at most. -/
theorem unique (h : t.Walks follow links place steps ending) (h' : t.Walks follow links place steps ending') :
  ending = ending'
  := by
  obtain ⟨bound, hbound, -⟩ := t.exists_linksWithin
  exact Except.ok.inj ((h.walk hbound (Nat.le_refl _)).symm.trans (h'.walk hbound (Nat.le_refl _)))

theorem of_directory {name : String} {rest : List Step} (h : t.Walks follow links place (.enter name :: rest) ending)
    (hentry : t.entry? (place ++ [name]) = some .directory) :
  t.Walks follow links (place ++ [name]) rest ending
  := by
  cases h <;> simp_all

theorem of_link {name target : String} {rest : List Step}
    (h : t.Walks follow (links + 1) place (.enter name :: rest) ending) (hfollow : follow = true)
    (hentry : t.entry? (place ++ [name]) = some (.link target)) :
  t.Walks follow links (if target.toList.head? == some '/' then [] else place) (stepsOf target ++ rest) ending
  := by
  cases h <;> simp_all

/-- Where a way ends at a free name, nothing stands. -/
theorem free_of_absent (h : t.Walks follow links place steps (.absent found)) :
  t.entry? found = none
  := by
  generalize hend : Found.absent found = ending at h
  induction h with
  | here => cases hend
  | up _ ih => exact ih hend
  | demandDirectory _ ih => exact ih hend
  | free entry =>
    cases hend
    exact entry
  | directory _ _ ih => exact ih hend
  | file => cases hend
  | kept => cases hend
  | link _ _ _ ih => exact ih hend

/-- What a way that follows links ends at is reached in any case, if only as a link. -/
theorem exists_unfollowed (h : t.Walks true links place steps (.present found entry)) :
  ∃ found' entry', t.Walks false links place steps (.present found' entry')
  := by
  generalize hend : Found.present found entry = ending at h
  induction h with
  | here => exact ⟨_, _, .here⟩
  | up _ ih =>
    obtain ⟨found', entry', hkept⟩ := ih hend
    exact ⟨found', entry', .up hkept⟩
  | demandDirectory _ ih =>
    obtain ⟨found', entry', hkept⟩ := ih hend
    exact ⟨found', entry', .demandDirectory hkept⟩
  | free => cases hend
  | directory entry _ ih =>
    obtain ⟨found', entry', hkept⟩ := ih hend
    exact ⟨found', entry', .directory entry hkept⟩
  | file entry => exact ⟨_, _, .file entry⟩
  | kept _ keeps => cases keeps
  | @link _ _ _ _ rest _ entry _ _ ih =>
    by_cases hlast : rest = []
    · subst hlast
      exact ⟨_, _, .kept entry rfl⟩
    · obtain ⟨found', entry', hkept⟩ := ih hend
      exact ⟨found', entry', .link entry (absurd · hlast) hkept⟩

/-- Behind steps that lead to a directory a way goes on from there. -/
theorem append (h : t.Walks true links place steps (.present found .directory)) (hmore : more ≠ [])
    (hnext : ∀ links, t.Walks follow links found more ending) :
  t.Walks follow links place (steps ++ more) ending
  := by
  generalize hend : Found.present found .directory = last at h
  induction h with
  | here =>
    cases hend
    exact hnext _
  | up _ ih => exact .up (ih hend)
  | demandDirectory _ ih => exact .demandDirectory (ih hend)
  | free => cases hend
  | directory entry _ ih => exact .directory entry (ih hend)
  | file => cases hend
  | kept => cases hend
  | @link links place name target rest _ entry _ _ ih =>
    have hnext : t.Walks follow links _ (stepsOf target ++ (rest ++ more)) ending :=
      (List.append_assoc _ _ _).symm ▸ ih hend
    exact .link entry (fun hnil => absurd (List.append_eq_nil_iff.mp hnil).2 hmore) hnext

/-- What comes before further steps leads to a directory, unless a free name is all that is before the demand for
one. -/
theorem split (h : t.Walks follow links place (steps ++ more) ending) (hmore : more ≠ [])
    (hends : more = [.demandDirectory] → ∀ free, ending ≠ .absent free) :
  ∃ links' directory, t.Walks true links place steps (.present directory .directory) ∧
    t.Walks follow links' directory more ending
  := by
  generalize hall : steps ++ more = all at h
  induction h generalizing steps with
  | here => exact absurd (List.append_eq_nil_iff.mp hall).2 hmore
  | up next ih =>
    rcases List.append_eq_cons_iff.mp hall with ⟨rfl, rfl⟩ | ⟨rest, rfl, hrest⟩
    · exact ⟨_, _, .here, .up next⟩
    · obtain ⟨links', directory, hbefore, hbehind⟩ := ih hends hrest.symm
      exact ⟨links', directory, .up hbefore, hbehind⟩
  | demandDirectory next ih =>
    rcases List.append_eq_cons_iff.mp hall with ⟨rfl, rfl⟩ | ⟨rest, rfl, hrest⟩
    · exact ⟨_, _, .here, .demandDirectory next⟩
    · obtain ⟨links', directory, hbefore, hbehind⟩ := ih hends hrest.symm
      exact ⟨links', directory, .demandDirectory hbefore, hbehind⟩
  | free entry last =>
    rcases List.append_eq_cons_iff.mp hall with ⟨rfl, rfl⟩ | ⟨rest, rfl, rfl⟩
    · exact ⟨links, _, .here, .free entry last⟩
    · rcases last with hnil | hdemand
      · exact absurd (List.append_eq_nil_iff.mp hnil).2 hmore
      · rcases List.append_eq_singleton_iff.mp hdemand with ⟨-, hdemand⟩ | ⟨-, hnil⟩
        · exact absurd rfl (hends hdemand _)
        · exact absurd hnil hmore
  | directory entry next ih =>
    rcases List.append_eq_cons_iff.mp hall with ⟨rfl, rfl⟩ | ⟨rest, rfl, hrest⟩
    · exact ⟨_, _, .here, .directory entry next⟩
    · obtain ⟨links', directory, hbefore, hbehind⟩ := ih hends hrest.symm
      exact ⟨links', directory, .directory entry hbefore, hbehind⟩
  | file entry =>
    rcases List.append_eq_cons_iff.mp hall with ⟨rfl, rfl⟩ | ⟨rest, rfl, hrest⟩
    · exact ⟨links, _, .here, .file entry⟩
    · exact absurd (List.append_eq_nil_iff.mp hrest.symm).2 hmore
  | kept entry keeps =>
    rcases List.append_eq_cons_iff.mp hall with ⟨rfl, rfl⟩ | ⟨rest, rfl, hrest⟩
    · exact ⟨links, _, .here, .kept entry keeps⟩
    · exact absurd (List.append_eq_nil_iff.mp hrest.symm).2 hmore
  | link entry follows next ih =>
    rcases List.append_eq_cons_iff.mp hall with ⟨rfl, rfl⟩ | ⟨rest, rfl, rfl⟩
    · exact ⟨_, _, .here, .link entry follows next⟩
    · obtain ⟨links', directory, hbefore, hbehind⟩ := ih hends (List.append_assoc _ _ _)
      exact ⟨links', directory, .link entry (fun _ => rfl) hbefore, hbehind⟩

/-- A way that ends with the demand for a directory is the way there without the demand. -/
theorem of_demandDirectory (h : t.Walks follow links place (steps ++ [.demandDirectory]) (.present found entry)) :
  entry = .directory ∧ t.Walks true links place steps (.present found .directory)
  := by
  obtain ⟨links', directory, hbefore, hbehind⟩ := h.split (List.cons_ne_nil _ _) (by rintro - _ ⟨⟩)
  cases hbehind with
  | demandDirectory next =>
    cases next
    exact ⟨rfl, hbefore⟩

/-- A way ends at something other than a directory only if its last step enters a name. -/
theorem directory_of_last (h : t.Walks follow links place steps (.present found entry))
    (hlast : ∀ name, steps.getLast? ≠ some (.enter name)) :
  entry = .directory
  := by
  induction steps using List.reverseRecOn with
  | nil =>
    cases h
    rfl
  | append_singleton before last =>
    cases last with
    | enter name => exact absurd List.getLast?_concat (hlast name)
    | demandDirectory => exact h.of_demandDirectory.1
    | up =>
      obtain ⟨links', directory, -, hbehind⟩ := h.split (List.cons_ne_nil _ _) nofun
      cases hbehind with
      | up next =>
        cases next
        rfl

end Walks

end CallGraph.FileTree
