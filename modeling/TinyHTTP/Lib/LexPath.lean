import Mathlib.Data.List.DropRight

/-!
# TinyHTTP — paths, resolved lexically

A path is a text, cut at the separators into components. Resolving one component
in a directory stays there (no name, or `.`), goes up (`..`), or goes down; a
directory is the list of the names that lead to it, and there is nothing above
the empty list.

* `walk_eq` — what a list of components comes to, wherever it starts: some levels
  up (`ups`), then down along some names.
* `inside_append_iff` — when a text glued to a root stays below the root.
-/

namespace TinyHTTP.Lib

variable {α : Type*} [DecidableEq α]

/-- The characters that have a meaning in a path: `/` and `.`. -/
structure PathChars (α : Type*) where
  sep : α
  dot : α

/-- A directory, by the names that lead to it from the top. -/
abbrev Dir (α : Type*) := List (List α)

variable (P : PathChars α)

/-- The component `c`, resolved in `dir`. -/
def resolveIn (dir : Dir α) (c : List α) : Dir α :=
  if c = [] ∨ c = [P.dot] then dir
  else if c = [P.dot, P.dot] then dir.dropLast
  else dir ++ [c]

/-- The components `cs`, resolved one after the other. -/
def walk (dir : Dir α) (cs : List (List α)) : Dir α := cs.foldl (resolveIn P) dir

def components (path : List α) : List (List α) := path.splitOn P.sep

/-- Where a path leads from the working directory `cwd`. -/
def locate (cwd : Dir α) (path : List α) : Dir α :=
  walk P (if path.head? = some P.sep then [] else cwd) (components P path)

/-- `path` lies at or below the directory `root`. -/
def Inside (cwd : Dir α) (root path : List α) : Prop :=
  locate P cwd (root ++ [P.sep]) <+: locate P cwd path

/-- What components come to: so many levels up, then down along the names. -/
structure Climb (α : Type*) where
  ups : Nat
  names : Dir α

def Climb.step (r : Climb α) (c : List α) : Climb α :=
  if c = [] ∨ c = [P.dot] then r
  else if c = [P.dot, P.dot] then
    if r.names = [] then { r with ups := r.ups + 1 } else { r with names := r.names.dropLast }
  else { r with names := r.names ++ [c] }

def climb (cs : List (List α)) : Climb α := cs.foldl (Climb.step P) ⟨0, []⟩

/-- So many levels up, then down. -/
def Climb.goTo (r : Climb α) (dir : Dir α) : Dir α := dir.take (dir.length - r.ups) ++ r.names

/-- The last names of `dir`, which going up gives up, are the first ones on the way down. -/
def UndoneBy (dir : Dir α) (r : Climb α) : Prop := dir.drop (dir.length - r.ups) <+: r.names

/-- The last name of `root`, and what is before it. -/
def baseName (root : List α) : List α := root.rtakeWhile fun a => a ≠ P.sep
def dirName (root : List α) : List α := root.rdropWhile fun a => a ≠ P.sep

/-- Whether `file`, glued to the text of `root`, comes back to the root. Behind a separator the
levels that it goes up must be undone by the last names of the root; else it continues the last
name of the root, and starts in the directory above. -/
def Returns (cwd : Dir α) (root file : List α) : Prop :=
  if file.head? = some P.sep then
    UndoneBy (locate P cwd (root ++ [P.sep])) (climb P (components P file))
  else
    locate P cwd (root ++ [P.sep]) <+:
      (climb P (components P (baseName P root ++ file))).goTo (locate P cwd (dirName P root))

instance (cwd : Dir α) (root path : List α) : Decidable (Inside P cwd root path) :=
  inferInstanceAs (Decidable (_ <+: _))

instance (dir : Dir α) (r : Climb α) : Decidable (UndoneBy dir r) :=
  inferInstanceAs (Decidable (_ <+: _))

instance (cwd : Dir α) (root file : List α) : Decidable (Returns P cwd root file) :=
  inferInstanceAs (Decidable (ite (file.head? = some P.sep) _ _))

variable {P}

-- ---------------------------------------------------------------------------
-- Walking
-- ---------------------------------------------------------------------------

theorem walk_append (dir : Dir α) (cs ds : List (List α)) :
    walk P dir (cs ++ ds) = walk P (walk P dir cs) ds :=
  List.foldl_append

theorem walk_nil_cons (dir : Dir α) (cs : List (List α)) :
    walk P dir ([] :: cs) = walk P dir cs := by
  rw [walk, List.foldl_cons, resolveIn, if_pos (Or.inl rfl), walk]

theorem climb_concat (cs : List (List α)) (c : List α) :
    climb P (cs ++ [c]) = (climb P cs).step P c := by
  rw [climb, List.foldl_append]
  rfl

omit [DecidableEq α] in
/-- One more level up, from a directory that has been reached by going up. -/
theorem dropLast_take (dir : Dir α) (k : Nat) :
    (dir.take (dir.length - k)).dropLast = dir.take (dir.length - (k + 1)) := by
  rw [List.dropLast_eq_take, List.take_take, List.length_take]
  congr 1
  omega

/-- **Components, wherever they start.** -/
theorem walk_eq (dir : Dir α) (cs : List (List α)) :
    walk P dir cs = (climb P cs).goTo dir := by
  induction cs using List.reverseRecOn with
  | nil => simp [walk, climb, Climb.goTo]
  | append_singleton cs c ih =>
    rw [walk_append, ih, climb_concat]
    show resolveIn P _ c = _
    unfold Climb.goTo
    by_cases hstay : c = [] ∨ c = [P.dot]
    · rw [resolveIn, Climb.step, if_pos hstay, if_pos hstay]
    by_cases hup : c = [P.dot, P.dot]
    · rw [resolveIn, Climb.step, if_neg hstay, if_neg hstay, if_pos hup, if_pos hup]
      by_cases hnames : (climb P cs).names = []
      · rw [if_pos hnames, hnames, List.append_nil, dropLast_take]
        exact (List.append_nil _).symm
      · rw [if_neg hnames, List.dropLast_append_of_ne_nil hnames]
    · rw [resolveIn, Climb.step, if_neg hstay, if_neg hstay, if_neg hup, if_neg hup,
        List.append_assoc]

/-- A directory is above what is reached from it when the names that were given up come back. -/
theorem prefix_walk_iff (dir : Dir α) (cs : List (List α)) :
    dir <+: walk P dir cs ↔ UndoneBy dir (climb P cs) := by
  rw [walk_eq, Climb.goTo]
  conv_lhs => lhs; rw [← List.take_append_drop (dir.length - (climb P cs).ups) dir]
  rw [List.prefix_append_right_inj, UndoneBy]

-- ---------------------------------------------------------------------------
-- Texts
-- ---------------------------------------------------------------------------

theorem components_append_sep (as bs : List α) :
    components P (as ++ P.sep :: bs) = components P as ++ components P bs :=
  List.splitOn_append_cons_self as bs

theorem components_nil : components P ([] : List α) = [[]] := List.splitOn_nil _

theorem components_sep (bs : List α) : components P (P.sep :: bs) = [] :: components P bs :=
  components_append_sep [] bs

/-- What comes behind a separator starts where the text before it leads. -/
theorem locate_append_sep (cwd : Dir α) (as bs : List α) :
    locate P cwd (as ++ P.sep :: bs) = walk P (locate P cwd (as ++ [P.sep])) (components P bs) := by
  have hhead : (as ++ P.sep :: bs).head? = (as ++ [P.sep]).head? := by
    cases as with
    | nil => rfl
    | cons a as => rfl
  rw [locate, locate, hhead, components_append_sep, components_append_sep, walk_append, walk_append,
    components_nil, walk_nil_cons]
  rfl

theorem dirName_append_baseName (root : List α) : dirName P root ++ baseName P root = root :=
  List.rdropWhile_append_rtakeWhile

theorem sep_not_mem_baseName (root : List α) : P.sep ∉ baseName P root := fun h => by
  have := List.mem_rtakeWhile_imp h
  simp at this

/-- The text before the last name is empty, or ends in a separator. -/
theorem dirName_cases (root : List α) :
    dirName P root = [] ∨ ∃ as, dirName P root = as ++ [P.sep] := by
  by_cases h : dirName P root = []
  · exact Or.inl h
  · have hlast := List.rdropWhile_last_not (fun a => decide (a ≠ P.sep)) root h
    simp only [decide_eq_true_eq, not_not] at hlast
    refine Or.inr ⟨(dirName P root).dropLast, ?_⟩
    conv_lhs => rw [← List.dropLast_append_getLast h]
    rw [← hlast]
    rfl

/-- A text that does not begin with a separator continues the last name of the root. -/
theorem locate_glued (cwd : Dir α) (root : List α) {file : List α}
    (hfile : file.head? ≠ some P.sep) :
    locate P cwd (root ++ file) =
      walk P (locate P cwd (dirName P root)) (components P (baseName P root ++ file)) := by
  have hroot : root ++ file = dirName P root ++ (baseName P root ++ file) := by
    rw [← List.append_assoc, dirName_append_baseName]
  rw [hroot]
  rcases dirName_cases (P := P) root with hdir | ⟨as, hdir⟩
  · have hhead : (baseName P root ++ file).head? ≠ some P.sep := by
      have hbase := sep_not_mem_baseName (P := P) root
      cases h : baseName P root with
      | nil => exact hfile
      | cons a base =>
        rw [h, List.mem_cons, not_or] at hbase
        exact fun heq => hbase.1 (Option.some.inj heq).symm
    have hstart : locate P cwd ([] : List α) = cwd := rfl
    rw [hdir, List.nil_append, hstart, locate, if_neg hhead]
  · rw [hdir, List.append_assoc, List.singleton_append, locate_append_sep]

/-- **Escape.** When a text that is glued to the root stays at or below it. -/
theorem inside_append_iff (cwd : Dir α) (root file : List α) :
    Inside P cwd root (root ++ file) ↔ Returns P cwd root file := by
  unfold Inside Returns
  by_cases hfile : file.head? = some P.sep
  · obtain ⟨rest, rfl⟩ : ∃ rest, file = P.sep :: rest := by
      cases file with
      | nil => cases hfile
      | cons a rest =>
        obtain rfl := Option.some.inj hfile
        exact ⟨rest, rfl⟩
    rw [if_pos hfile, locate_append_sep cwd root rest, ← walk_nil_cons, ← components_sep,
      prefix_walk_iff]
  · rw [if_neg hfile, locate_glued cwd root hfile, walk_eq]

/-- A file that never goes up stays below the root. -/
theorem returns_of_ups {cwd : Dir α} {root file : List α} (hfile : file.head? = some P.sep)
    (hups : (climb P (components P file)).ups = 0) : Returns P cwd root file := by
  unfold Returns
  rw [if_pos hfile, UndoneBy, hups, Nat.sub_zero, List.drop_length]
  exact List.nil_prefix

end TinyHTTP.Lib
