import BehaviorTree.Proofs.Tick.Change
import BehaviorTree.Proofs.World.Codec

/-!
# Worlds that a host comes by

A host starts from an empty world, or from one that it reads, changes it, and has trees ticked in it. All
of that is a history of changes, which tells what the world holds.
-/

namespace BehaviorTree.World

/-- What a host does with a world. -/
inductive Move where
  | make (c : Change)
  /-- It has a tree ticked in the world. -/
  | execute (e : Executor) (agent : String) (dt : Float32) (blackboard : Blackboard)

/-- The worlds that a host starts from, with the entities that they are made of. -/
inductive Start : World → List Entity → Prop where
  | empty : Start ∅ []
  | read {δ : Type} [Source δ] {d : δ} {w : World} {es : List Entity} :
      World.read d = some w → listed? d = some es → Start w es

def move (w : World) : Move → World
  | .make c => w.make c
  | .execute e agent dt blackboard => (e.execute agent dt ⟨w, blackboard⟩).scene.world

/-- The changes that a move makes to a world. -/
def changesOf (w : World) : Move → List Change
  | .make c => [c]
  | .execute e agent dt blackboard => e.changes ⟨agent, dt, ⟨w, blackboard⟩⟩

def after (w : World) (moves : List Move) : World := moves.foldl move w

def history (w : World) : List Move → List Change
  | [] => []
  | m :: rest => w.changesOf m ++ (w.move m).history rest

theorem move_eq_made (w : World) (m : Move) : w.move m = w.made (w.changesOf m) := by
  cases m with
  | make c => rfl
  | execute e agent dt blackboard => exact e.world_execute ⟨agent, dt, ⟨w, blackboard⟩⟩

theorem after_eq_made (w : World) (moves : List Move) : w.after moves = w.made (w.history moves) := by
  induction moves generalizing w with
  | nil => rfl
  | cons m rest ih =>
    have hafter : w.after (m :: rest) = (w.move m).after rest := rfl
    rw [hafter, ih, history, made_append, ← move_eq_made]

theorem Start.eq_made {w : World} {es : List Entity} (h : Start w es) :
    w = made ∅ (es.map .insert) ∧ w = ofEntities es := by
  have hmade : ofEntities es = made ∅ (es.map .insert) := by
    rw [made, List.foldl_map]
    rfl
  cases h with
  | empty => exact ⟨rfl, rfl⟩
  | read hread hlisted =>
    rw [read_eq_map, hlisted, Option.map_some, Option.some.injEq] at hread
    exact ⟨hread ▸ hmade, hread.symm⟩

/-- Whatever a host does with a world, every entity stands under its own name, in the order of names, and
is the one last put there, with all later partial changes made to it in order. In a list of entities the
last of each name counts. A world that can be kept is read back with an empty log; no entity that was read
has further fields that stand in the way. -/
theorem stands_after {start : World} {es : List Entity} (h : Start start es) (moves : List Move) :
    let w := start.after moves
    let changes := es.map .insert ++ start.history moves
    (∀ name e, w.get? name = some e → e.name = name) ∧
      (w.list.map (·.name)).Pairwise (· < ·) ∧
      (∀ name e, w.get? name = some e ↔ Stands changes name e) ∧
      (∀ name, start.get? name = (es.filter (·.name = name)).getLast?) ∧
      ((∀ e ∈ w.list, e.Keepable) → read w.document.kept = some ⟨w.entities, []⟩) ∧
      ∀ (δ : Type) [Source δ] (d : δ) (e : Entity), Entity.read d = some e →
        ∀ name ∈ Entity.fieldNames, e.extra.get? name = none := by
  intro w changes
  obtain ⟨hstart, hentities⟩ := h.eq_made
  have hw : w = made ∅ changes := by
    rw [made_append, ← hstart]
    exact after_eq_made start moves
  have hstands : ∀ name e, w.get? name = some e ↔ Stands changes name e := by
    rw [hw]
    exact fun name e => get?_made_eq_some_iff
  have hnames : ∀ name e, w.get? name = some e → e.name = name :=
    fun name e he => ((hstands name e).mp he).name_eq
  refine ⟨hnames, pairwise_name_list hnames, hstands, ?_, read_kept hnames, fun δ _ d e => ?_⟩
  · rw [hentities]
    exact get?_ofEntities es
  · exact Entity.extra_of_read

/-- A player of whom two are listed is hit and then moved. -/
theorem stands_after_hit :
    let d : Document := .object [("entities", .array [
      .object [("name", .string "Guard"), ("team", .string "red")],
      .object [("name", .string "Player"), ("health", .number (.integer 50))],
      .object [("name", .string "Player")]])]
    let es : List Entity := [⟨"Guard", .zero, 100, 100, none, .ofList [("team", .string "red")]⟩,
      ⟨"Player", .zero, 50, 100, none, ∅⟩, ⟨"Player", .zero, 100, 100, none, ∅⟩]
    let start := ofEntities es
    let attack := Executor.ofGenerator (.single "attack" []) ⟨0⟩
    let moves : List Move := [.execute attack "Guard" 1 ∅,
      .make (.patch "Player" (.ofPosition ⟨1, 2⟩)), .make (.insert (.create "Cat" .zero)),
      .make (.remove "Cat"), .make .take]
    let w := start.after moves
    let player : Entity := ⟨"Player", ⟨1, 2⟩, 90, 100, none, ∅⟩
    read d = some start ∧ Start start es ∧ (start.history moves).length = 6 ∧
      w.get? "Player" = some player ∧
      Stands (es.map .insert ++ start.history moves) "Player" player ∧
      read w.document.kept = some ⟨w.entities, []⟩ := by
  intro d es start attack moves w player
  have hread : read d = some start := by decide +kernel
  have hlisted : listed? d = some es := by decide +kernel
  have hstart : Start start es := .read hread hlisted
  have hplayer : w.get? "Player" = some player := by decide +kernel
  obtain ⟨-, -, hstands, -, hkept, -⟩ := stands_after hstart moves
  exact ⟨hread, hstart, by decide +kernel, hplayer, (hstands _ _).mp hplayer,
    hkept (by decide +kernel)⟩

end BehaviorTree.World
