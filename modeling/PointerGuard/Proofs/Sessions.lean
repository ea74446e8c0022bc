import PointerGuard.Proofs.Failures

/-!
# Splicing sessions

The values of a drafted function are its parameters and then its instructions, and
each instruction is listed once, by the block it says it is in. Inserting at a point
keeps this, whatever is asked for, and puts what was asked for at the point, in order.
-/

namespace PointerGuard

open PointerGuard.Function Edit

variable {f g : Function} {b : BlockId} {i : Nat} {kind : InstKind} {ty : Ty} {m : Module}
  {ops : List Insertion}

/-- What an edit did before it failed stays when the failure is caught. -/
theorem Edit.apply_tryCatch {σ α : Type} {x : Edit σ α} {handler : Error → Edit σ α} {s : σ} :
    (tryCatch x handler).apply s =
      match x.apply s with
      | (.ok a, t) => (.ok a, t)
      | (.error e, t) => (handler e).apply t := by
  simp only [apply, ExceptT.run, StateT.run, tryCatch, tryCatchThe, MonadExceptOf.tryCatch,
    ExceptT.tryCatch, ExceptT.mk, bind, StateT.bind]
  cases hx : x s with
  | mk outcome t => cases outcome <;> rfl

namespace Function

variable {x : ValueId}

/-- The block an instruction says it is in. -/
def home? (f : Function) (x : ValueId) : Option BlockId := (f.inst? x).map Instruction.block

/-- The values are the parameters and then the instructions, and each instruction is listed once,
in its own block. -/
structure Arena (f : Function) : Prop where
  params : ∀ n < f.signature.params.length, ∃ ty, f.value? (f.valueAt n) = some ⟨ty, .param n⟩
  insts : ∀ n < f.values.size, f.signature.params.length ≤ n → (f.home? (f.valueAt n)).isSome
  listed : ∀ x b, (f.instsOf b).count x = if f.home? x = some b then 1 else 0

theorem home?_congr (h : g.value? x = f.value? x) : g.home? x = f.home? x := by
  rw [home?, home?, inst?_congr h]

theorem home?_nextValue : f.home? f.nextValue = none := by
  rw [home?, inst?, value?_nextValue]
  rfl

theorem arena_declaration {id : FuncId} {name : String} {sig : Signature} :
    (declaration id name sig).Arena := by
  refine ⟨fun n hn => value?_declaration id name hn, fun n hlt hle => ?_, fun x b => ?_⟩
  · have hsize : n < sig.params.length := by simpa [declaration] using hlt
    exact absurd hsize (Nat.not_lt.mpr hle)
  · have hhome : (declaration id name sig).home? x = none := by
      rw [home?, Option.map_eq_none_iff, inst?]
      split
      · rename_i inst hvalue
        simp [value?, declaration] at hvalue
      · rfl
    rw [hhome, if_neg (by simp)]
    rfl

/-- Nothing moves when the values keep their origins and the blocks their lists. -/
theorem Arena.congr (A : f.Arena) (hid : g.id = f.id) (hsig : g.signature = f.signature)
    (hsize : g.values.size = f.values.size)
    (hparam : ∀ x ty n, f.value? x = some ⟨ty, .param n⟩ → g.value? x = f.value? x)
    (hhome : ∀ x, g.home? x = f.home? x) (hlist : ∀ c, g.instsOf c = f.instsOf c) : g.Arena := by
  have hat : ∀ n, g.valueAt n = f.valueAt n := fun n => by rw [valueAt, valueAt, hid]
  refine ⟨fun n hn => ?_, fun n hlt hle => ?_, fun x c => ?_⟩
  · obtain ⟨ty, hvalue⟩ := A.params n (hsig ▸ hn)
    exact ⟨ty, by rw [hat, hparam _ _ _ hvalue, hvalue]⟩
  · rw [hat, hhome]
    exact A.insts n (hsize ▸ hlt) (hsig ▸ hle)
  · rw [hlist, hhome]
    exact A.listed x c

/-- A new instruction is listed where it is put, and nowhere else. -/
theorem Arena.push {front rest : List ValueId} {inserted : Bool} (A : f.Arena) (hid : g.id = f.id)
    (hsig : g.signature = f.signature) (hsize : g.values.size = f.values.size + 1)
    (hvalue : ∀ x, g.value? x =
      if x = f.nextValue then some ⟨ty, .inst ⟨kind, b, inserted⟩⟩ else f.value? x)
    (hsplit : f.instsOf b = front ++ rest) (hlist : g.instsOf b = front ++ f.nextValue :: rest)
    (hother : ∀ c, c ≠ b → g.instsOf c = f.instsOf c) : g.Arena := by
  have hat : ∀ n, g.valueAt n = f.valueAt n := fun n => by rw [valueAt, valueAt, hid]
  have hold : ∀ x, x ≠ f.nextValue → g.home? x = f.home? x := fun x hx =>
    home?_congr (by rw [hvalue, if_neg hx])
  have hnew : g.home? f.nextValue = some b := by
    rw [home?, inst?_eq_some_iff.mpr ⟨ty, (hvalue _).trans (if_pos rfl)⟩, Option.map_some]
  refine ⟨fun n hn => ?_, fun n hlt hle => ?_, fun x c => ?_⟩
  · obtain ⟨ty', hparam⟩ := A.params n (hsig ▸ hn)
    refine ⟨ty', ?_⟩
    rw [hat, hvalue, if_neg, hparam]
    intro e
    rw [e, value?_nextValue] at hparam
    cases hparam
  · rw [hat]
    by_cases hlast : n = f.values.size
    · rw [hlast, ← nextValue, hnew]
      rfl
    · rw [hold]
      · exact A.insts n (by omega) (hsig ▸ hle)
      · intro e
        exact hlast (congrArg ValueId.index e)
  · have hcount := A.listed x c
    by_cases hc : c = b
    · subst hc
      rw [hsplit] at hcount
      rw [hlist, List.perm_middle.count_eq, List.count_cons, hcount]
      by_cases hx : x = f.nextValue
      · subst hx
        simp [hnew, home?_nextValue]
      · simp [hold x hx, Ne.symm hx]
    · rw [hother c hc, hcount]
      by_cases hx : x = f.nextValue
      · subst hx
        simp [hnew, home?_nextValue, Ne.symm hc]
      · rw [hold x hx]

theorem Arena.append (A : f.Arena) : (f.append b kind ty).Arena :=
  A.push rfl rfl (by simp [Function.append, Function.ensureBlock]) (fun _ => value?_append)
    (List.append_nil _).symm (by rw [instsOf_append, if_pos rfl])
    (fun c hc => by rw [instsOf_append, if_neg hc])

theorem Arena.insertAt (A : f.Arena) (hb : b.index < f.blocks.size) :
    (f.insertAt b i kind ty).Arena :=
  A.push rfl rfl size_values_insertAt (fun _ => value?_insertAt)
    (List.take_append_drop i _).symm (instsOf_insertAt hb) (fun _ => instsOf_insertAt_of_ne)

theorem Arena.ensureBlock (A : f.Arena) : (f.ensureBlock b).Arena :=
  A.congr rfl rfl rfl (fun _ _ _ _ => rfl) (fun _ => rfl) (fun _ => instsOf_ensureBlock)

theorem Arena.withEdges {phi : ValueId} {incoming edges : List (Operand × BlockId)} (A : f.Arena)
    (hphi : f.kind? phi = some (.phi incoming)) : (f.withEdges phi edges).Arena := by
  obtain ⟨inst, ty, -, hvalue⟩ := value?_of_kind? hphi
  have hinst : f.inst? phi = some inst := inst?_eq_some_iff.mpr ⟨ty, hvalue⟩
  have hset := modifyInst.eq_def f phi fun inst => { inst with kind := .phi edges }
  rw [hvalue] at hset
  refine A.congr ?_ ?_ size_values_withEdges (fun x ty' n hparam => ?_) (fun x => ?_)
    fun _ => instsOf_withEdges
  · rw [Function.withEdges, hset]
  · rw [Function.withEdges, hset]
  · refine value?_withEdges_of_ne fun e => ?_
    rw [e, hvalue] at hparam
    cases hparam
  · rw [home?, home?, inst?_withEdges hinst]
    split
    · rename_i hx
      rw [hx, hinst]
      rfl
    · rfl

end Function

namespace Draft

open Outcome

theorem build_arena {items : List Item} {values : List (Option ValueId)} (A : f.Arena)
    (h : build m f items = .ok (g, values)) : g.Arena :=
  build_keeps (fun A => A.congr rfl rfl rfl (fun _ _ _ _ => rfl) (fun _ => rfl) (fun _ => rfl))
    .ensureBlock (fun hkind A => A.withEdges hkind) .append A h

end Draft

/-! ### What can be asked for -/

/-- One request of a session. -/
inductive Insertion where
  | insert (kind : InstKind) (ty : Ty)
  | gep (base : Operand) (indices : List Operand) (ty : Ty)
  | bitcast (value : Operand) (ty : Ty)
  | toVoidPtr (value : Operand)
  | select (cond ifTrue ifFalse : Operand)
  | phi (ty : Ty)
  | call (callee : Operand) (sig : Signature) (args : List Operand)
  | extract (aggregate : Operand) (index : Nat)

namespace Insertion

/-- Do what is asked for, and drop the result. -/
def run : Insertion → Edit Splice Unit
  | .insert kind ty => do let _ ← Splice.insert kind ty
  | .gep base indices ty => do let _ ← Splice.gep base indices ty
  | .bitcast value ty => do let _ ← Splice.bitcast value ty
  | .toVoidPtr value => do let _ ← Splice.toVoidPtr value
  | .select cond ifTrue ifFalse => do let _ ← Splice.select cond ifTrue ifFalse
  | .phi ty => do let _ ← Splice.phi ty
  | .call callee sig args => do let _ ← Splice.call callee sig args
  | .extract aggregate index => do let _ ← Splice.extract aggregate index

/-- Do what is asked for, and go on if it fails. -/
def attempt (op : Insertion) : Edit Splice Unit := tryCatch op.run fun _ => pure ⟨⟩

/-- The instruction a request stands for in a function, with the type of its result. A cast that
is not needed stands for none, nor does a request that cannot be met. -/
def instruction? (f : Function) : Insertion → Option (InstKind × Ty)
  | .insert kind ty => some (kind, ty)
  | .gep base indices ty => some (.gep base indices, ty)
  | .bitcast value ty => some (.cast .bitcast value, ty)
  | .toVoidPtr value => do
    let ty ← (f.operandType value).toOption
    if ty.isPointer && !ty.isVoidPtr && value.value?.isSome then
      some (.cast .bitcast value, .voidPtr)
    else none
  | .select cond ifTrue ifFalse => do
    return (.select cond ifTrue ifFalse, ← (f.operandType ifTrue).toOption)
  | .phi ty => some (.phi [], ty)
  | .call callee sig args => some (.call callee args sig, sig.ret)
  | .extract aggregate index => do
    let ty ← (f.operandType aggregate).toOption
    return (.extract aggregate index, ← ty.element? index)

end Insertion

namespace Splice

variable {s s' : Splice} {op : Insertion}

/-- The splice with one more instruction, if there is one. -/
def after (s : Splice) : Option (InstKind × Ty) → Splice
  | some (kind, ty) => s.push kind ty
  | none => s

private theorem apply_operandType {operand : Operand} :
    (operandType operand).apply s = (s.func.operandType operand, s) := by
  rw [operandType, Edit.apply_bind]
  change (Edit.ofExcept (s.func.operandType operand)).apply s = _
  cases s.func.operandType operand <;> rfl

/-- A request inserts the instruction it stands for, and one that stands for an instruction
succeeds. -/
theorem apply_run (s : Splice) (op : Insertion) :
    ∃ outcome, op.run.apply s = (outcome, s.after (op.instruction? s.func)) ∧
    ((op.instruction? s.func).isSome → outcome = .ok ⟨⟩) := by
  cases op with
  | insert kind ty => exact ⟨_, rfl, fun _ => rfl⟩
  | gep base indices ty => exact ⟨_, rfl, fun _ => rfl⟩
  | bitcast value ty => exact ⟨_, rfl, fun _ => rfl⟩
  | phi ty => exact ⟨_, rfl, fun _ => rfl⟩
  | call callee sig args => exact ⟨_, rfl, fun _ => rfl⟩
  | toVoidPtr value =>
    have hrun : (Insertion.toVoidPtr value).run.apply s = _ := Edit.apply_bind
    simp only [toVoidPtr, Edit.apply_bind, apply_operandType] at hrun
    rw [hrun]
    rw [Insertion.instruction?]
    cases s.func.operandType value with
    | error e => exact ⟨_, rfl, fun h => by cases h⟩
    | ok ty =>
      simp only [Except.toOption, Option.bind_eq_bind, Option.bind_some]
      by_cases hpointer : ty.isPointer
      · by_cases hvoid : ty.isVoidPtr
        · simp only [hpointer, hvoid, if_true]
          exact ⟨_, rfl, fun _ => rfl⟩
        · simp only [hpointer, hvoid, if_true]
          cases value with
          | const c => cases c <;> exact ⟨_, rfl, fun _ => rfl⟩
          | value x => exact ⟨_, rfl, fun _ => rfl⟩
      · simp only [hpointer]
        exact ⟨_, rfl, fun h => by simp at h⟩
  | select cond ifTrue ifFalse =>
    have hrun : (Insertion.select cond ifTrue ifFalse).run.apply s = _ := Edit.apply_bind
    simp only [select, Edit.apply_bind, apply_operandType] at hrun
    rw [hrun, Insertion.instruction?]
    cases s.func.operandType ifTrue with
    | ok ty => exact ⟨_, rfl, fun _ => rfl⟩
    | error e => exact ⟨_, rfl, fun h => by cases h⟩
  | extract aggregate index =>
    have hrun : (Insertion.extract aggregate index).run.apply s = _ := Edit.apply_bind
    simp only [extract, Edit.apply_bind, apply_operandType] at hrun
    rw [hrun, Insertion.instruction?]
    cases s.func.operandType aggregate with
    | ok ty =>
      simp only [Except.toOption, Option.bind_eq_bind, Option.bind_some]
      cases ty.element? index with
      | some part => exact ⟨_, rfl, fun _ => rfl⟩
      | none => exact ⟨_, rfl, fun h => by cases h⟩
    | error e => exact ⟨_, rfl, fun h => by cases h⟩

/-- The splice after a request, met or not. -/
def perform (s : Splice) (op : Insertion) : Splice := (op.run.apply s).2

theorem apply_attempt : op.attempt.apply s = (.ok ⟨⟩, s.perform op) := by
  obtain ⟨outcome, happly, -⟩ := apply_run s op
  rw [perform, happly]
  rw [Insertion.attempt, apply_tryCatch, happly]
  cases outcome <;> rfl

theorem perform_eq : s.perform op = s.after (op.instruction? s.func) := by
  obtain ⟨outcome, happly, -⟩ := apply_run s op
  rw [perform, happly]

theorem eq_of_fails {e : Error} (h : op.run.Fails s e s') :
    s' = s ∧ op.instruction? s.func = none := by
  obtain ⟨outcome, happly, hok⟩ := apply_run s op
  have hfails := h.symm.trans happly
  cases hinst : op.instruction? s.func with
  | none =>
    rw [hinst] at hfails
    exact ⟨congrArg Prod.snd hfails, rfl⟩
  | some instruction =>
    rw [hok (by rw [hinst]; rfl)] at hfails
    cases congrArg Prod.fst hfails

/-- What the requests of a session insert, each as the function is when its turn comes. -/
def additions (s : Splice) : List Insertion → List (InstKind × Ty)
  | [] => []
  | op :: ops => (op.instruction? s.func).toList ++ (s.perform op).additions ops

/-- What pushes keep, a session keeps. -/
theorem perform_induction {P : Splice → Prop} (hpush : ∀ u kind ty, P u → P (u.push kind ty))
    (hs : P s) : P (ops.foldl perform s) := by
  induction ops generalizing s with
  | nil => exact hs
  | cons op ops ih =>
    refine ih ?_
    rw [perform_eq]
    cases op.instruction? s.func with
    | none => exact hs
    | some instruction => exact hpush _ _ _ hs

end Splice

namespace Function

variable {point : InsertPoint}

/-- One function is another with instructions put into a block at a position, in order, and
nothing else changed. Their handles are the next free ones. -/
structure Spliced (f : Function) (b : BlockId) (i : Nat) (added : List (InstKind × Ty))
    (g : Function) : Prop where
  header : g = { f with values := g.values, blocks := g.blocks }
  values : g.values =
    f.values ++ (added.map fun (kind, ty) => ⟨ty, .inst ⟨kind, b, true⟩⟩).toArray
  size_blocks : g.blocks.size = f.blocks.size
  instsOf_block : g.instsOf b = (f.instsOf b).take i ++
    (List.range' f.values.size added.length).map f.valueAt ++ (f.instsOf b).drop i
  instsOf_of_ne : ∀ c, c ≠ b → g.instsOf c = f.instsOf c

theorem Spliced.refl : f.Spliced b i [] f :=
  ⟨rfl, by simp, rfl, by simp, fun _ _ => rfl⟩

/-- Instructions can be put in one by one. -/
theorem Spliced.insertAt {added : List (InstKind × Ty)} (hb : b.index < f.blocks.size)
    (hi : i ≤ (f.instsOf b).length) (S : (f.insertAt b i kind ty).Spliced b (i + 1) added g) :
    f.Spliced b i ((kind, ty) :: added) g := by
  refine ⟨S.header, ?_, ?_, ?_, fun c hc => ?_⟩
  · rw [S.values]
    simp [Function.insertAt]
  · rw [S.size_blocks, size_blocks_insertAt]
  · obtain ⟨front, rest, hsplit, rfl⟩ : ∃ front rest, f.instsOf b = front ++ rest ∧
        front.length = i :=
      ⟨_, _, (List.take_append_drop i _).symm, by rw [List.length_take, Nat.min_eq_left hi]⟩
    have hat : (f.insertAt b front.length kind ty).valueAt = f.valueAt := rfl
    rw [S.instsOf_block, instsOf_insertAt hb, size_values_insertAt, hat, hsplit, List.length_cons,
      List.range'_succ, List.map_cons, List.take_left, List.drop_left, ← nextValue,
      List.take_length_add_append, List.drop_length_add_append]
    simp
  · rw [S.instsOf_of_ne c hc, instsOf_insertAt_of_ne hc]

/-- An insert point names a position of a block that exists. -/
theorem locate?_le (h : f.locate? point = some (b, i)) :
    b.index < f.blocks.size ∧ i ≤ (f.instsOf b).length := by
  cases point with
  | before y => exact ⟨(place_before h).block_lt, (place_before h).le_length⟩
  | after y =>
    obtain ⟨before, after, hsplit, rfl⟩ := locate?_after h
    exact ⟨index_lt_of_mem_instsOf (x := y) (by simp [hsplit]), by simp [hsplit]⟩
  | afterPhis c =>
    simp only [locate?, Option.bind_eq_bind, Option.bind_eq_some_iff] at h
    obtain ⟨block, hblock, rfl, rfl⟩ := h
    have hinsts : f.instsOf b = block.insts := by rw [instsOf, hblock]
    exact ⟨(Array.getElem?_eq_some_iff.mp hblock).1,
      hinsts ▸ (List.takeWhile_prefix _).length_le⟩
  | prologue => exact ⟨(place_prologue h).block_lt, (place_prologue h).le_length⟩
  | beforeTerminator c =>
    exact ⟨(place_beforeTerminator h).block_lt, (place_beforeTerminator h).le_length⟩

theorem spliced_perform (hb : b.index < f.blocks.size) (hi : i ≤ (f.instsOf b).length) :
    f.Spliced b i (Splice.additions ⟨f, b, i⟩ ops) (ops.foldl Splice.perform ⟨f, b, i⟩).func := by
  induction ops generalizing f i with
  | nil => exact .refl
  | cons op ops ih =>
    rw [List.foldl_cons, Splice.additions, Splice.perform_eq]
    cases op.instruction? f with
    | none => exact ih hb hi
    | some instruction =>
      have hlength : i + 1 ≤
          ((f.insertAt b i instruction.1 instruction.2).instsOf b).length := by
        rw [instsOf_insertAt hb, List.perm_middle.length_eq, List.take_append_drop,
          List.length_cons]
        omega
      exact .insertAt hb hi (ih (by rwa [size_blocks_insertAt]) hlength)

/-- A function after a session at an insert point, in which requests may fail. -/
def session (f : Function) (point : InsertPoint) (ops : List Insertion) : Function :=
  ((splice point (ops.forM Insertion.attempt)).apply f).2

theorem session_of_none (h : f.locate? point = none) : f.session point ops = f := by
  have hlocate : f.locate point = .error (.invalidIr (.noInsertPoint point f.name)) := by
    rw [locate, h]
  have hfails : (splice point (ops.forM Insertion.attempt)).Fails f
      (.invalidIr (.noInsertPoint point f.name)) f := by
    rw [splice, fails_get_bind, fails_bind]
    exact .inl (fails_ofExcept.mpr ⟨hlocate, rfl⟩)
  rw [session, hfails]

theorem session_of_some (h : f.locate? point = some (b, i)) :
    f.session point ops = (ops.foldl Splice.perform ⟨f, b, i⟩).func := by
  have hruns : ∀ s : Splice,
      (ops.forM Insertion.attempt).Runs s ⟨⟩ (ops.foldl Splice.perform s) := by
    induction ops with
    | nil => exact fun s => runs_pure.mpr ⟨rfl, rfl⟩
    | cons op ops ih =>
      intro s
      exact runs_bind.mpr ⟨_, _, Splice.apply_attempt, ih _⟩
  rw [session, runs_splice.mpr ⟨b, i, _, h, hruns _, rfl⟩]

theorem Arena.session (A : f.Arena) : (f.session point ops).Arena := by
  cases h : f.locate? point with
  | none => rwa [session_of_none h]
  | some place =>
    obtain ⟨b, i⟩ := place
    rw [session_of_some h]
    have start : f.Arena ∧ b.index < f.blocks.size := ⟨A, (locate?_le h).1⟩
    refine (Splice.perform_induction (s := ⟨f, b, i⟩)
      (P := fun u => u.func.Arena ∧ u.block.index < u.func.blocks.size)
      (fun u kind ty hu => ⟨hu.1.insertAt hu.2, ?_⟩) start).1
    rw [Splice.push, size_blocks_insertAt]
    exact hu.2

/-- A function after some sessions. -/
def sessions (f : Function) (requests : List (InsertPoint × List Insertion)) : Function :=
  requests.foldl (fun f (point, ops) => f.session point ops) f

/-- However a drafted function is spliced into, its parameters come first and each instruction is
listed once, in its block. A session puts what its requests stand for at the point, in order,
and changes nothing else; neither a point that is not there nor a request that fails does. -/
theorem sessions_splice {m : Module} {id : FuncId} {name : String} {sig : Signature}
    {items : List Draft.Item} {values : List (Option ValueId)}
    (h : Draft.build m (.declaration id name sig) items = .ok (f, values))
    (requests : List (InsertPoint × List Insertion)) (hg : g = f.sessions requests) :
    g.Arena ∧ (∀ point ops, g.locate? point = none → g.session point ops = g) ∧
      (∀ point ops b i, g.locate? point = some (b, i) → i ≤ (g.instsOf b).length ∧
        g.Spliced b i (Splice.additions ⟨g, b, i⟩ ops) (g.session point ops)) ∧
      ∀ (op : Insertion) (s s' : Splice) e, op.run.Fails s e s' →
        s' = s ∧ op.instruction? s.func = none := by
  refine ⟨?_, fun _ _ => session_of_none, fun point ops b i hlocate => ?_,
    fun op s s' e => Splice.eq_of_fails⟩
  · subst hg
    have A := Draft.build_arena arena_declaration h
    clear h
    induction requests generalizing f with
    | nil => exact A
    | cons request requests ih => exact ih A.session
  · obtain ⟨hb, hi⟩ := locate?_le hlocate
    rw [session_of_some hlocate]
    exact ⟨hi, spliced_perform hb hi⟩

/-- A function that reads through its parameter. -/
def peekItems : List Draft.Item :=
  [.inst 0 (.alloca (.int 32) none), .inst 0 (.load (.param 0)), .inst 0 (.ret none)]

def peek : Function :=
  match Draft.build { name := "m", width := .bits64 }
    (.declaration ⟨0⟩ "peek" ⟨.void, [.ptr (.int 32)], false⟩)
      peekItems with
  | .ok (f, _) => f
  | .error _ => default

/-- The cast at the top stays, the point that is not there is passed over, and behind the
allocation the choice fails and the cast is made. -/
theorem sessions_splice_peek :
    let g := peek.sessions [
      (.prologue, [.toVoidPtr (.value (peek.valueAt 0)), .extract (.value (peek.valueAt 9)) 0]),
      (.before (peek.valueAt 9), [.phi (.int 1)])]
    g.Arena ∧ (g.session (.after (peek.valueAt 1)) [
      .select (.const (.int 1 1)) (.value (peek.valueAt 9)) (.value (peek.valueAt 9)),
      .bitcast (.value (peek.valueAt 1)) .voidPtr]).instsOf ⟨0⟩ =
        [4, 1, 5, 2, 3].map peek.valueAt := by
  intro g
  have hbuild : Draft.build { name := "m", width := .bits64 }
      (.declaration ⟨0⟩ "peek" ⟨.void, [.ptr (.int 32)], false⟩) peekItems =
        .ok (peek, [some ⟨⟨0⟩, 1⟩, some ⟨⟨0⟩, 2⟩, some ⟨⟨0⟩, 3⟩]) := rfl
  obtain ⟨A, -, hsession, -⟩ := sessions_splice hbuild _ (rfl : g = _)
  obtain ⟨-, S⟩ := hsession (.after (peek.valueAt 1)) _ ⟨0⟩ 2 rfl
  exact ⟨A, S.instsOf_block⟩

end Function

end PointerGuard
