import Mathlib.Data.List.Basic

/-! # Resolving paths

A path leads from directory to directory, and a symbolic link on the way stands for the path it
holds. Only the last piece makes a difference between following links and not: a link there is
followed, or is what the path leads to. The number of links followed is bounded. -/
namespace ErofsUtils.Paths

abbrev Piece := List UInt8

/-- A path, cut at its slashes. A piece is empty where two slashes meet, and behind a slash at
the end. -/
structure Path where
  absolute : Bool
  pieces : List Piece
deriving DecidableEq

/-- What a name in a directory stands for. -/
inductive Node (ι : Type) where
  | dir (parent : ι) (entries : List (Piece × ι))
  | link (target : Path)
  | other

structure FileTree (ι : Type) where
  root : ι
  node : ι → Node ι

/-- The path of an entry. -/
def Path.join (p : Path) (name : Piece) : Path := { p with pieces := p.pieces ++ [name] }

def Node.isLink {ι : Type} : Node ι → Bool
  | link _ => true
  | _ => false

/-- The pieces that name no entry. -/
def Piece.isSpecial (piece : Piece) : Bool := piece = [] || piece = [46] || piece = [46, 46]

namespace FileTree
variable {ι : Type} (t : FileTree ι)

/-- Where one piece leads. -/
def enter (cur : ι) (piece : Piece) : Option ι :=
  match t.node cur with
  | .dir parent entries =>
    if piece = [] ∨ piece = [46] then some cur
    else if piece = [46, 46] then some parent
    else entries.lookup piece
  | _ => none

/-- Where a path starts; the empty one nowhere. -/
def start (cwd : ι) (p : Path) : Option ι :=
  if p.absolute then some t.root
  else if p.pieces = [] then none
  else some cwd

/-- The walk up to the next link that is followed; `jump` goes on behind it. -/
def walkWith (follow : Bool) (jump : ι → List Piece → Option ι) : ι → List Piece → Option ι
  | cur, [] => some cur
  | cur, piece :: rest =>
    match t.enter cur piece with
    | none => none
    | some next =>
      match t.node next with
      | .link target =>
        if rest = [] ∧ follow = false then some next
        else (t.start cur target).bind fun first => jump first (target.pieces ++ rest)
      | _ => walkWith follow jump next rest

/-- The walk along the pieces over at most `links` links. -/
def walk (follow : Bool) : (links : Nat) → ι → List Piece → Option ι
  | 0 => t.walkWith follow fun _ _ => none
  | links + 1 => t.walkWith follow (walk follow links)

def resolve (links : Nat) (cwd : ι) (follow : Bool) (p : Path) : Option ι :=
  (t.start cwd p).bind fun first => t.walk follow links first p.pieces

variable {t} {cur cwd d : ι} {pieces : List Piece} {name : Piece} {links : Nat} {p : Path}

/-! ## One more piece -/

theorem walkWith_single (jump : ι → List Piece → Option ι) :
    t.walkWith false jump cur [name] = t.enter cur name := by
  rw [walkWith]
  cases t.enter cur name with
  | none => rfl
  | some next =>
    dsimp only
    cases t.node next with
    | dir parent entries => rfl
    | other => rfl
    | link target => exact if_pos ⟨rfl, rfl⟩

/-- The links in front of the last piece are followed either way. -/
theorem walkWith_concat {jump jump' : ι → List Piece → Option ι}
    (h : ∀ c ps, jump c (ps ++ [name]) = (jump' c ps).bind fun i => t.enter i name) :
    t.walkWith false jump cur (pieces ++ [name]) =
      (t.walkWith true jump' cur pieces).bind fun i => t.enter i name := by
  induction pieces generalizing cur with
  | nil => exact walkWith_single jump
  | cons piece rest ih =>
    rw [List.cons_append, walkWith, walkWith]
    cases t.enter cur piece with
    | none => rfl
    | some next =>
      dsimp only
      cases t.node next with
      | dir parent entries => exact ih
      | other => exact ih
      | link target =>
        dsimp only
        rw [if_neg (by simp), if_neg (by simp)]
        cases t.start cur target with
        | none => rfl
        | some first =>
          rw [Option.bind_some, Option.bind_some, ← List.append_assoc, h]

theorem walk_concat : t.walk false links cur (pieces ++ [name]) =
    (t.walk true links cur pieces).bind fun i => t.enter i name := by
  induction links generalizing cur pieces with
  | zero => exact walkWith_concat fun _ _ => rfl
  | succ links ih => exact walkWith_concat fun _ _ => ih

/-- **The path of an entry** leads to the entry, be it a link or not. -/
theorem resolve_join (h : t.resolve links cwd true p = some d) (name : Piece) :
    t.resolve links cwd false (p.join name) = t.enter d name := by
  obtain ⟨first, hfirst, hwalk⟩ := Option.bind_eq_some_iff.mp h
  have hstart : t.start cwd (p.join name) = some first := by
    unfold start at *
    split at hfirst
    · rename_i habs
      rw [if_pos (show (p.join name).absolute = true from habs), hfirst]
    · rename_i hrel
      split at hfirst
      · cases hfirst
      · rw [if_neg (show ¬ (p.join name).absolute = true from hrel), if_neg (by simp [Path.join]),
          hfirst]
  rw [resolve, hstart, Option.bind_some]
  show t.walk false links first (p.pieces ++ [name]) = _
  rw [walk_concat, hwalk, Option.bind_some]

/-! ## The last piece -/

/-- Without following the last link a walk ends where it does with it, or at a link. -/
theorem walkWith_nofollow {jump jump' : ι → List Piece → Option ι}
    (h : ∀ c ps d, jump' c ps = some d →
      ∃ i, jump c ps = some i ∧ (i = d ∨ (t.node i).isLink = true))
    (hwalk : t.walkWith true jump' cur pieces = some d) :
    ∃ i, t.walkWith false jump cur pieces = some i ∧ (i = d ∨ (t.node i).isLink = true) := by
  induction pieces generalizing cur with
  | nil => exact ⟨cur, rfl, .inl (Option.some.inj hwalk)⟩
  | cons piece rest ih =>
    rw [walkWith] at hwalk ⊢
    cases henter : t.enter cur piece with
    | none =>
      rw [henter] at hwalk
      cases hwalk
    | some next =>
      rw [henter] at hwalk
      dsimp only at hwalk ⊢
      cases hnode : t.node next with
      | dir parent entries =>
        rw [hnode] at hwalk
        exact ih hwalk
      | other =>
        rw [hnode] at hwalk
        exact ih hwalk
      | link target =>
        rw [hnode] at hwalk
        dsimp only at hwalk ⊢
        rw [if_neg (by simp)] at hwalk
        by_cases hrest : rest = []
        · rw [if_pos ⟨hrest, rfl⟩]
          exact ⟨next, rfl, .inr (by rw [hnode]; rfl)⟩
        · rw [if_neg fun hboth => hrest hboth.1]
          obtain ⟨first, hfirst, hjump⟩ := Option.bind_eq_some_iff.mp hwalk
          rw [hfirst, Option.bind_some]
          exact h first _ d hjump

theorem walk_nofollow (h : t.walk true links cur pieces = some d) :
    ∃ i, t.walk false links cur pieces = some i ∧ (i = d ∨ (t.node i).isLink = true) := by
  induction links generalizing cur pieces d with
  | zero => exact walkWith_nofollow (by simp) h
  | succ links ih => exact walkWith_nofollow (fun _ _ _ hjump => ih hjump) h

/-- **Not following** the last link leads to the same, or to a link. -/
theorem resolve_nofollow (h : t.resolve links cwd true p = some d) :
    ∃ i, t.resolve links cwd false p = some i ∧ (i = d ∨ (t.node i).isLink = true) := by
  obtain ⟨first, hfirst, hwalk⟩ := Option.bind_eq_some_iff.mp h
  rw [resolve, hfirst]
  exact walk_nofollow hwalk

/-! ## Entries -/

/-- A name that stands once in a directory leads to its node. -/
theorem enter_entry {parent i : ι} {entries : List (Piece × ι)}
    (hd : t.node d = .dir parent entries) (hnodup : (entries.map Prod.fst).Nodup) (hname : name.isSpecial = false)
    (hmem : (name, i) ∈ entries) : t.enter d name = some i := by
  have hpiece : ¬ (name = [] ∨ name = [46]) ∧ ¬ name = [46, 46] := by
    simpa [Piece.isSpecial, not_or] using hname
  obtain ⟨front, behind, rfl⟩ := List.append_of_mem hmem
  rw [enter, hd]
  dsimp only
  rw [if_neg hpiece.1, if_neg hpiece.2]
  refine List.lookup_eq_some_iff.mpr ⟨front, behind, rfl, fun e he => ?_⟩
  rw [List.map_append, List.map_cons, List.nodup_append] at hnodup
  have hne := hnodup.2.2 e.1 (List.mem_map_of_mem he) name List.mem_cons_self
  simpa using Ne.symm hne

end FileTree
end ErofsUtils.Paths
