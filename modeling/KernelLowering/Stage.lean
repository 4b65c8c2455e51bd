import KernelLowering.Kernel.Kind

namespace KernelLowering

inductive Stage where
  | selected
  | tiledMid
  | promotedMid
  | tiledLocal
  | promotedLocal
  deriving DecidableEq, Repr

namespace Stage

def all : List Stage := [selected, tiledMid, promotedMid, tiledLocal, promotedLocal]

def rank : Stage → Nat
  | selected => 0
  | tiledMid => 1
  | promotedMid => 2
  | tiledLocal => 3
  | promotedLocal => 4

instance : LT Stage := ⟨fun a b => a.rank < b.rank⟩

instance : LE Stage := ⟨fun a b => a.rank ≤ b.rank⟩

instance (a b : Stage) : Decidable (a < b) := inferInstanceAs (Decidable (a.rank < b.rank))

instance (a b : Stage) : Decidable (a ≤ b) := inferInstanceAs (Decidable (a.rank ≤ b.rank))

instance : Ord Stage := ⟨fun a b => compare a.rank b.rank⟩

instance : Min Stage := ⟨fun a b => if a ≤ b then a else b⟩

def text : Stage → String
  | selected => "kernel-selected"
  | tiledMid => "tiled-to-mid-tier"
  | promotedMid => "promoted-to-mid-tier"
  | tiledLocal => "tiled-to-compute-tile"
  | promotedLocal => "promoted-to-compute-tile"

def label : Stage → String
  | selected => "Selected"
  | tiledMid => "TiledMid"
  | promotedMid => "PromotedMid"
  | tiledLocal => "TiledLocal"
  | promotedLocal => "PromotedLocal"

def optionLabel : Option Stage → String
  | some stage => s!"Some({stage.label})"
  | none => "None"

def parse? (text : String) : Option Stage := all.find? (·.text == text)

def parseFailure : String := "Matching variant not found"

theorem mem_all (stage : Stage) : stage ∈ all := by
  cases stage <;> simp [all]

theorem rank_injective {a b : Stage} (h : a.rank = b.rank) : a = b := by
  cases a <;> cases b <;> simp_all [rank]

theorem parse?_text (stage : Stage) : parse? stage.text = some stage := by
  cases stage <;> decide

end Stage

inductive Transition where
  | tileMid
  | promoteMid
  | tileLocal
  | promoteLocal
  deriving DecidableEq, Repr

def Transition.label : Transition → String
  | tileMid => "TileMid"
  | promoteMid => "PromoteMid"
  | tileLocal => "TileLocal"
  | promoteLocal => "PromoteLocal"

structure Step where
  source : Stage
  transition : Transition
  target : Stage
  ascends : source < target := by decide
  deriving DecidableEq, Repr

namespace Step

def direct : List Step :=
  [⟨.selected, .tileMid, .tiledMid, by decide⟩,
   ⟨.tiledMid, .tileLocal, .tiledLocal, by decide⟩,
   ⟨.tiledLocal, .promoteLocal, .promotedLocal, by decide⟩]

def promoting : List Step :=
  [⟨.selected, .tileMid, .tiledMid, by decide⟩,
   ⟨.tiledMid, .promoteMid, .promotedMid, by decide⟩,
   ⟨.promotedMid, .tileLocal, .tiledLocal, by decide⟩,
   ⟨.tiledLocal, .promoteLocal, .promotedLocal, by decide⟩]

def table (kind : KernelKind) (promoteMid : Bool) : List Step :=
  match kind, promoteMid with
  | .matmul, false => direct
  | .matmul, true => promoting
  | .conv2d, _ => promoting

def next? (kind : KernelKind) (promoteMid : Bool) (current : Stage) : Option Step :=
  (table kind promoteMid).find? (·.source = current)

def terminal (kind : KernelKind) (promoteMid : Bool) : Stage :=
  ((table kind promoteMid).getLast?.map (·.target)).getD .selected

theorem terminal_eq (kind : KernelKind) (promoteMid : Bool) :
    terminal kind promoteMid = .promotedLocal := by
  cases kind <;> cases promoteMid <;> rfl

theorem next?_of_mem {kind : KernelKind} {promoteMid : Bool} {step : Step}
    (h : step ∈ table kind promoteMid) : next? kind promoteMid step.source = some step := by
  cases kind <;> cases promoteMid <;>
    simp [table, direct, promoting] at h <;> rcases h with h | h <;>
      grind [next?, table, direct, promoting]

end Step

end KernelLowering
