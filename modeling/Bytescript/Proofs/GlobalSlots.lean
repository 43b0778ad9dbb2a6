/-
How runs use global slots.

One instruction looks at globals and two store there. Everything else that a machine does is the
same whatever is in the globals: `Blind` says so of an action, and is closed under the sequence of
actions. Storing does not look at globals either, so a blind action also stores the same values.

* `join_globals_of_reaches` — a slot keeps what is in it until a value is stored there;
* `exec_getGlobal` — what is read depends on one slot only.
-/
import Bytescript.Proofs.Turn

namespace Bytescript

variable {S V α β : Type}

/-- The instruction stores a value in the global slot. -/
def Instruction.StoresTo (i : Instruction) (slot : Nat) : Prop :=
  (i.opcode = .setGlobal ∨ i.opcode = .assignGlobal) ∧ i.operands.getD 0 0 = slot

namespace Machine

/-! ### Actions that do not look at globals -/

/-- The globals after values were stored in them one by one. -/
def storeAll (globals : Globals V) (stores : List (Nat × V)) : Globals V :=
  stores.foldl (fun globals store => storeGlobal globals store.1 store.2) globals

theorem storeAll_append (globals : Globals V) (stores stores' : List (Nat × V)) :
    storeAll globals (stores ++ stores') = storeAll (storeAll globals stores) stores' :=
  List.foldl_append

theorem join_storeAll {globals : Globals V} {stores : List (Nat × V)} {n : Nat}
    (h : ∀ store ∈ stores, store.1 ≠ n) :
    (storeAll globals stores)[n]?.join = globals[n]?.join := by
  induction stores generalizing globals with
  | nil => rfl
  | cons store stores ih =>
    have hstore : store.1 ≠ n := h store (by simp)
    have hrest : ∀ store ∈ stores, store.1 ≠ n := fun store hmem => h store (by simp [hmem])
    calc (storeAll (storeGlobal globals store.1 store.2) stores)[n]?.join
        = (storeGlobal globals store.1 store.2)[n]?.join := ih hrest
      _ = globals[n]?.join := by rw [join_storeGlobal, if_neg hstore.symm]

/-- Whatever is in the globals, the action does the same, and it stores the same values, all of them
in slots of `T`. -/
def Blind (T : Nat → Prop) (x : MachineM S V α) : Prop :=
  ∀ m : Machine S V, ∃ stores : List (Nat × V), (∀ store ∈ stores, T store.1) ∧
    ∀ globals, exec x { m with globals } =
      ((exec x m).1, { (exec x m).2 with globals := storeAll globals stores })

section

variable {T : Nat → Prop} {host : Host S V}

namespace Blind

/-- An action that stores nothing. -/
theorem of_eq {x : MachineM S V α} (h : ∀ (m : Machine S V) globals,
    exec x { m with globals } = ((exec x m).1, { (exec x m).2 with globals })) : Blind T x :=
  fun m => ⟨[], fun _ hstore => by simp at hstore, h m⟩

protected theorem bind {x : MachineM S V α} {f : α → MachineM S V β} (hx : Blind T x)
    (hf : ∀ a, Blind T (f a)) : Blind T (x >>= f) := by
  intro m
  obtain ⟨stores, hstores, hexec⟩ := hx m
  generalize hresult : exec x m = result at hexec
  rcases result with ⟨fault | a, m₁⟩
  · refine ⟨stores, hstores, fun globals => ?_⟩
    rw [exec_bind, exec_bind, hexec, hresult]
  · obtain ⟨stores₁, hstores₁, hexec₁⟩ := hf a m₁
    refine ⟨stores ++ stores₁, ?_, fun globals => ?_⟩
    · intro store hmem
      rcases List.mem_append.mp hmem with hmem | hmem
      · exact hstores store hmem
      · exact hstores₁ store hmem
    · rw [exec_bind, exec_bind, hexec, hresult, storeAll_append]
      exact hexec₁ _

protected theorem pure (a : α) : Blind T (pure a : MachineM S V α) :=
  .of_eq fun _ _ => rfl

protected theorem throw (fault : Fault) : Blind T (throw fault : MachineM S V α) :=
  .of_eq fun _ _ => rfl

/-- An action that looks at the machine, but not at its globals. -/
theorem get {f : Machine S V → MachineM S V β}
    (hf : ∀ (m : Machine S V) globals, f { m with globals } = f m) (h : ∀ m, Blind T (f m)) :
    Blind T (get >>= f) := by
  intro m
  obtain ⟨stores, hstores, hexec⟩ := h m m
  refine ⟨stores, hstores, fun globals => ?_⟩
  rw [exec_bind, exec_get, exec_bind, exec_get]
  dsimp only
  rw [hf, hexec]

theorem modify_bind {f : Machine S V → Machine S V} {g : PUnit → MachineM S V β}
    (hf : ∀ m globals, f { m with globals } = { f m with globals }) (hg : ∀ a, Blind T (g a)) :
    Blind T (modify f >>= g) :=
  Blind.bind (.of_eq fun m globals => by rw [exec_modify, exec_modify, hf]) hg

theorem modify {f : Machine S V → Machine S V}
    (hf : ∀ m globals, f { m with globals } = { f m with globals }) : Blind T (modify f) :=
  .of_eq fun m globals => by rw [exec_modify, exec_modify, hf]

theorem ask (question : StateM S α) : Blind (V := V) T (ask question) :=
  .of_eq fun _ _ => rfl

theorem tryAsk (question : ExceptT Fault (StateM S) α) : Blind (V := V) T (tryAsk question) :=
  .of_eq fun m globals => by rw [exec_tryAsk, exec_tryAsk]

theorem push (v : V) : Blind (S := S) T (push v) := by
  refine .get (fun _ _ => rfl) fun m => .get (fun _ _ => rfl) fun m' => ?_
  split
  · exact .modify fun _ _ => rfl
  · exact .throw _

theorem pop : Blind (S := S) T (pop (V := V)) := by
  refine .get (fun _ _ => rfl) fun m => ?_
  split
  · exact .modify_bind (fun _ _ => rfl) fun _ => .pure _
  · exact .throw _

theorem take (count : Nat) : Blind (S := S) T (take (V := V) count) := by
  refine .get (fun _ _ => rfl) fun m => ?_
  dsimp only
  split
  · refine .get (fun _ _ => rfl) fun m' => ?_
    exact .modify_bind (fun _ _ => rfl) fun _ => .pure _
  · exact .throw _

theorem currentFrame : Blind (S := S) T (currentFrame (V := V)) := by
  refine .get (fun _ _ => rfl) fun m => ?_
  split
  · exact .pure _
  · exact .throw _

theorem setPointer (ip : Nat) : Blind (S := S) T (setPointer (V := V) ip) :=
  .modify fun _ _ => rfl

theorem fetch : Blind (S := S) T (fetch (V := V)) := by
  refine currentFrame.bind fun frame => ?_
  split
  · exact (setPointer _).bind fun _ => .pure _
  · exact .throw _
  · exact .throw _
  · exact .throw _

theorem jump (target : Nat) : Blind (S := S) T (jump (V := V) target) := by
  refine currentFrame.bind fun frame => ?_
  split
  · exact setPointer _
  · exact .throw _

theorem localSlot (i : Nat) : Blind (S := S) T (localSlot (V := V) i) := by
  refine currentFrame.bind fun frame => .get (fun _ _ => rfl) fun m => ?_
  split
  · exact .pure _
  · exact .throw _

theorem getLocal (i : Nat) : Blind (S := S) T (getLocal (V := V) i) := by
  refine (localSlot i).bind fun slot => .get (fun _ _ => rfl) fun m => ?_
  split
  · exact push _
  · exact .throw _

theorem setLocal (i : Nat) : Blind (S := S) T (setLocal (V := V) i) := by
  refine pop.bind fun v => (localSlot i).bind fun slot => ?_
  exact .modify fun _ _ => rfl

theorem setGlobal {i : Nat} (hi : T i) : Blind (S := S) T (setGlobal (V := V) i) := by
  refine pop.bind fun v => .get (fun _ _ => rfl) fun m => ?_
  split
  · exact fun m => ⟨[(i, v)], by simpa using hi, fun _ => rfl⟩
  · exact .throw _

theorem pushNulls (count : Nat) : Blind T (pushNulls host count) := by
  induction count with
  | zero => exact .pure _
  | succ count ih => exact (ask _).bind fun v => (push v).bind fun _ => ih

theorem callClosure (closure : Closure V) (argc : Nat) :
    Blind T (callClosure host closure argc) := by
  rw [Machine.callClosure]
  split
  · exact .throw _
  · refine .get (fun _ _ => rfl) fun m => ?_
    dsimp only
    split
    · exact .throw _
    · refine (pushNulls _).bind fun _ => ?_
      exact .modify fun _ _ => rfl

theorem call (argc : Nat) : Blind T (call host argc) := by
  refine .get (fun _ _ => rfl) fun m => ?_
  dsimp only
  split
  · exact .throw _
  · refine .get (fun _ _ => rfl) fun m' => ?_
    split
    · exact .throw _
    · refine (ask _).bind fun closure? => ?_
      split
      · exact callClosure _ _
      · refine .get (fun _ _ => rfl) fun m'' => (tryAsk _).bind fun v? => ?_
        split
        · exact .modify_bind (fun _ _ => rfl) fun _ => push _
        · exact .throw _

theorem leave (v : V) : Blind (S := S) T (leave v) := by
  refine .get (fun _ _ => rfl) fun m => ?_
  split
  · exact .throw _
  · exact .modify_bind (fun _ _ => rfl) fun _ => .pure _
  · refine .modify_bind (fun _ _ => rfl) fun _ => ?_
    exact (push _).bind fun _ => .pure _

theorem freshIdentity : Blind (S := S) T (freshIdentity (V := V)) :=
  .of_eq fun _ _ => rfl

theorem makeClosure (i count : Nat) : Blind T (makeClosure host i count) := by
  refine .get (fun _ _ => rfl) fun m => ?_
  split
  · exact .throw _
  · refine (ask _).bind fun code? => ?_
    split
    · exact .throw _
    · refine (take _).bind fun free => freshIdentity.bind fun identity => ?_
      exact (ask _).bind fun v => push v

/-- Only one instruction looks at globals. -/
theorem execute {i : Instruction} (hi : i.opcode ≠ .getGlobal) :
    Blind i.StoresTo (execute host i) := by
  obtain ⟨op, operands⟩ := i
  cases op with
  | getGlobal => exact absurd rfl hi
  | constant =>
    refine .get (fun _ _ => rfl) fun m => ?_
    split
    · exact (push _).bind fun _ => .pure _
    · exact (Blind.throw _).bind fun _ => .pure _
  | pop =>
    exact pop.bind fun v => .modify_bind (fun _ _ => rfl) fun _ => .pure _
  | add | sub | mul | div | mod | equal | notEqual | greaterThan | greaterEqual | index =>
    refine pop.bind fun right => pop.bind fun left => (tryAsk _).bind fun v => ?_
    exact (push v).bind fun _ => .pure _
  | minus | bang =>
    exact pop.bind fun v => (tryAsk _).bind fun w => (push w).bind fun _ => .pure _
  | true | false | null => exact (ask _).bind fun v => (push v).bind fun _ => .pure _
  | jump => exact (jump _).bind fun _ => .pure _
  | jumpNotTruthy =>
    refine pop.bind fun v => (ask _).bind fun truthy => ?_
    split
    · exact .pure _
    · exact (jump _).bind fun _ => .pure _
  | setGlobal => exact (setGlobal ⟨.inl rfl, rfl⟩).bind fun _ => .pure _
  | assignGlobal => exact (setGlobal ⟨.inr rfl, rfl⟩).bind fun _ => .pure _
  | getLocal => exact (getLocal _).bind fun _ => .pure _
  | setLocal | assignLocal => exact (setLocal _).bind fun _ => .pure _
  | getBuiltin => exact (tryAsk _).bind fun v => (push v).bind fun _ => .pure _
  | getFree =>
    refine currentFrame.bind fun frame => ?_
    split
    · exact (push _).bind fun _ => .pure _
    · exact (Blind.throw _).bind fun _ => .pure _
  | array => exact (take _).bind fun items => (ask _).bind fun v => (push v).bind fun _ => .pure _
  | hash =>
    dsimp only [Machine.execute]
    -- what comes after the check is the same whether it fails or not
    have htake : Blind (Instruction.StoresTo ⟨.hash, operands⟩) (do
        let flat ← Machine.take (operands.getD 0 0)
        Machine.push (← Machine.tryAsk (host.hash (pairUp flat)))
        return (none : Option V)) :=
      (take _).bind fun flat => (tryAsk _).bind fun v => (push v).bind fun _ => .pure _
    split
    · exact (Blind.throw _).bind fun _ => htake
    · exact htake
  | call => exact (call _).bind fun _ => .pure _
  | returnValue => exact pop.bind fun v => leave v
  | ret => exact (ask _).bind fun v => leave v
  | closure => exact (makeClosure _ _).bind fun _ => .pure _
  | currentClosure =>
    exact currentFrame.bind fun frame => (ask _).bind fun v => (push v).bind fun _ => .pure _

end Blind

/-- What is in the globals after a blind action are its stores. -/
theorem Blind.exists_stores {x : MachineM S V α} (h : Blind T x) (m : Machine S V) :
    ∃ stores : List (Nat × V), (∀ store ∈ stores, T store.1) ∧
      (exec x m).2.globals = storeAll m.globals stores ∧
      ∀ globals, exec x { m with globals } =
        ((exec x m).1, { (exec x m).2 with globals := storeAll globals stores }) := by
  obtain ⟨stores, hstores, hexec⟩ := h m
  have hsame : exec x m =
      ((exec x m).1, { (exec x m).2 with globals := storeAll m.globals stores }) := hexec m.globals
  exact ⟨stores, hstores, congrArg (fun result => result.2.globals) hsame, hexec⟩

/-- Pushes what is in a slot, null if there is nothing. -/
def pushFound (host : Host S V) (found : Option V) : MachineM S V (Option V) :=
  found.elim (ask host.null >>= push) push >>= fun _ => pure none

theorem Blind.pushFound (found : Option V) : Blind T (pushFound host found) := by
  cases found with
  | none => exact ((ask _).bind fun v => push v).bind fun _ => .pure _
  | some v => exact (push v).bind fun _ => .pure _

/-- Reading a global looks at one slot. -/
theorem exec_getGlobal (operands : List Nat) (m : Machine S V) :
    exec (execute host ⟨.getGlobal, operands⟩) m =
      exec (pushFound host m.globals[operands.getD 0 0]?.join) m := by
  simp only [execute, getGlobal, exec_bind, exec_get]
  rw [pushFound, exec_bind]
  rcases m.globals[operands.getD 0 0]? with _ | _ | v <;> rfl

/-! ### Slots that are not stored to -/

theorem Blind.join_globals {x : MachineM S V α} (h : Blind T x) {n : Nat} (hn : ¬ T n)
    (m : Machine S V) : (exec x m).2.globals[n]?.join = m.globals[n]?.join := by
  obtain ⟨stores, hstores, hglobals, -⟩ := h.exists_stores m
  rw [hglobals]
  exact join_storeAll fun store hmem hstore => hn (hstore ▸ hstores store hmem)

theorem join_globals_execute (host : Host S V) {i : Instruction} {n : Nat} (hn : ¬ i.StoresTo n)
    (m : Machine S V) : (exec (execute host i) m).2.globals[n]?.join = m.globals[n]?.join := by
  by_cases hi : i.opcode = .getGlobal
  · obtain ⟨op, operands⟩ := i
    obtain rfl : op = .getGlobal := hi
    rw [exec_getGlobal]
    exact (Blind.pushFound _).join_globals hn m
  · exact (Blind.execute hi).join_globals hn m

/-- The machine is about to store a value in the global slot. -/
def StoresTo (m : Machine S V) (slot : Nat) : Prop :=
  ∃ i m₁, m.Fetches i m₁ ∧ i.StoresTo slot

/-- Turns lead from one machine to another, and none of them stores a value in the global slot. -/
abbrev ReachesUnstored (host : Host S V) (slot : Nat) : Machine S V → Machine S V → Prop :=
  Relation.ReflTransGen fun m m' => turn host m = .next m' ∧ ¬ m.StoresTo slot

/-- A turn that goes on has executed an instruction. -/
theorem exists_fetches {m m' : Machine S V} (h : turn host m = .next m') :
    ∃ i m₁, m.Fetches i m₁ ∧ m' = (exec (execute host i) m₁).2 := by
  rw [turn] at h
  split at h
  · cases h
  · split at h
    · split at h <;> cases h
    · rw [step, exec_bind] at h
      split at h
      · next i m₁ hfetch =>
        refine ⟨i, m₁, fetches_of_fetch hfetch, ?_⟩
        generalize exec (execute host i) m₁ = result at h
        rcases result with ⟨_ | _ | _, _⟩ <;> cases h
        rfl
      · cases h

theorem join_globals_turn {m m' : Machine S V} {n : Nat} (h : turn host m = .next m')
    (hn : ¬ m.StoresTo n) : m'.globals[n]?.join = m.globals[n]?.join := by
  obtain ⟨i, m₁, hfetches, rfl⟩ := exists_fetches h
  have hi : ¬ i.StoresTo n := fun hi => hn ⟨i, m₁, hfetches, hi⟩
  rw [join_globals_execute host hi]
  obtain ⟨frame, callers, -, -, rfl⟩ := hfetches
  rfl

/-- A slot keeps what is in it until a value is stored there. -/
theorem join_globals_of_reaches {m m' : Machine S V} {n : Nat}
    (h : ReachesUnstored host n m m') : m'.globals[n]?.join = m.globals[n]?.join := by
  induction h with
  | refl => rfl
  | tail _ hturn ih => exact (join_globals_turn hturn.1 hturn.2).trans ih

end

end Machine

end Bytescript
