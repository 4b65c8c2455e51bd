import KernelLowering.Program.Function

namespace KernelLowering

structure Program where
  functions : List Function
  deriving DecidableEq, Repr

namespace Program

def empty : Program := ⟨[]⟩

def names (p : Program) : List String := p.functions.map (·.name)

def find? (p : Program) (name : String) : Option Function :=
  p.functions.find? (·.name == name)

def insertInto (f : Function) : List Function → List Function
  | [] => [f]
  | g :: gs => if g.name = f.name then f :: gs else g :: insertInto f gs

def insert (p : Program) (f : Function) : Program := ⟨insertInto f p.functions⟩

def numbered (hint : String) (n : Nat) : String := hint ++ "_" ++ toString n

def uniqueName (p : Program) (hint : String) : String :=
  if hint ∈ p.names then
    let candidates := (List.range (p.functions.length + 1)).map fun i => numbered hint (i + 1)
    (candidates.find? (· ∉ p.names)).getD hint
  else
    hint

theorem names_insertInto_of_mem {f : Function} {gs : List Function}
    (h : f.name ∈ gs.map (·.name)) :
    (insertInto f gs).map (·.name) = gs.map (·.name) := by
  induction gs with
  | nil => simp at h
  | cons g gs ih =>
      unfold insertInto
      split
      · rename_i hg
        simp [hg]
      · rename_i hg
        simp only [List.map_cons, List.mem_cons] at h
        rcases h with h | h
        · exact absurd h.symm hg
        · simp [ih h]

theorem insertInto_of_not_mem {f : Function} {gs : List Function}
    (h : f.name ∉ gs.map (·.name)) : insertInto f gs = gs ++ [f] := by
  induction gs with
  | nil => rfl
  | cons g gs ih =>
      simp only [List.map_cons, List.mem_cons, not_or] at h
      simp [insertInto, Ne.symm h.1, ih h.2]

theorem numbered_injective {hint : String} {i j : Nat} (h : numbered hint i = numbered hint j) :
    i = j := by
  have hlist := congrArg String.toList h
  simp only [numbered, String.toList_append] at hlist
  have hnum := congrArg (fun ds => Nat.ofDigitChars 10 ds 0) (List.append_cancel_left hlist)
  simpa [Nat.toString_eq_ofList_toDigits] using hnum

theorem le_length_of_numbered_mem {hint : String} (count : Nat) :
    ∀ {names : List String} {start : Nat},
      (∀ i < count, numbered hint (start + i) ∈ names) → count ≤ names.length := by
  induction count with
  | zero => intro names start _; exact Nat.zero_le _
  | succ count ih =>
      intro names start h
      have hfirst : numbered hint start ∈ names := by simpa using h 0 (by omega)
      have hrest : ∀ i < count,
          numbered hint (start + 1 + i) ∈ names.erase (numbered hint start) := by
        intro i hi
        refine (List.mem_erase_of_ne ?_).mpr ?_
        · intro he
          have := numbered_injective he
          omega
        · simpa [Nat.add_assoc, Nat.add_comm, Nat.add_left_comm] using h (i + 1) (by omega)
      have hle := ih hrest
      rw [List.length_erase_of_mem hfirst] at hle
      have := List.length_pos_of_mem hfirst
      omega

theorem uniqueName_not_mem (p : Program) (hint : String) : p.uniqueName hint ∉ p.names := by
  unfold uniqueName
  split
  · simp only
    cases hfound : ((List.range (p.functions.length + 1)).map fun i => numbered hint (i + 1)).find?
        (· ∉ p.names) with
    | some name => simpa using List.find?_some hfound
    | none =>
        simp only [List.find?_eq_none, List.mem_map, List.mem_range] at hfound
        have hall : ∀ i < p.functions.length + 1, numbered hint (1 + i) ∈ p.names := by
          intro i hi
          simpa [Nat.add_comm] using hfound _ ⟨i, hi, rfl⟩
        have hle := le_length_of_numbered_mem _ hall
        rw [names, List.length_map] at hle
        omega
  · assumption

theorem uniqueName_of_not_mem {p : Program} {hint : String} (h : hint ∉ p.names) :
    p.uniqueName hint = hint := by
  simp [uniqueName, h]

end Program

end KernelLowering
