import StoryVM.Instr.Binder
import StoryVM.Proofs.InPlace

/-! # Binding in place

Binding an instruction is given in two parts: what it stands for, and one change to the binder that
appends this. Here it is a program that works on the binder in place. It loads operands from left to
right, creates labels, appends statements, and stops where it fails, with all that it has done by
then. The two come to the same, wherever it fails (`Binder.InPlace.runFrom_bindInstr`): once its own
label is placed, nothing that can fail comes after a change.

* `Binder.InPlace.store`, `Binder.InPlace.jumpStmt`, `Binder.InPlace.arm`: the steps in their order.
* `Binder.InPlace.Looks`: an action only asks the scope. `Binder.InPlace.Appends`: it asks the scope
  for an effect and appends that. Both are proved along the action. -/

namespace StoryVM

namespace Binder.InPlace

open StoryVM.InPlace (runFrom_bind)

variable {α β : Type}

/-! ## The steps -/

/-- Fails, in the routine that is being bound. -/
def fail (cause : DecodeFault) : InPlace Binder α := do
  throw (.decode (← get).routine cause)

/-- Asks the scope. -/
def ask (f : Scope → Except DecodeFault α) : InPlace Binder α := do
  match f (← get).scope with
  | .ok a => return a
  | .error cause => fail cause

/-- Loads an operand, from memory at the given width. -/
def load (o : Operand) (w : Width := .dword) : InPlace Binder Expr := ask (·.fetch o w)

/-- The label of an address, new if need be. -/
def labelAt (address : UInt32) : InPlace Binder Label := do
  let (l, b) := (← get).labelAt address
  set b
  return l

/-- Places a label at the current position. -/
def mark (l : Label) : InPlace Binder Unit := do
  let b ← get
  match b.draft.mark l with
  | .ok draft => set { b with draft := draft }
  | .error fault => throw fault

/-- Appends a statement. -/
def add (s : Stmt) : InPlace Binder Unit := modify (·.add s)

/-- Stores a value in an operand, in memory at the given width. -/
def store (o : Operand) (value : Expr) (w : Width := .dword) : InPlace Binder Unit :=
  match o.kind with
  | .constant =>
    if o.value = 0 then add (.eval value) else fail (.invalidStoreTarget o.value)
  | .address => add (.store w (.ofBits o.value) value)
  | .stack => add (.push value)
  | .localSlot => do
    let var ← ask (·.localAt o.value)
    add (.writeLocal var value)
  | .ram => do
    let address ← ask fun s => .ok (s.ramAddress o.value)
    add (.store w address value)

/-- The statement that goes where an offset leads, for an instruction followed by `next`. The label
that it names is created if need be. -/
def jumpStmt (offset : Operand) (next : UInt32) : InPlace Binder Stmt :=
  if offset.kind = .constant then
    if offset.value = 0 ∨ offset.value = 1 then return .ret (.ofBits offset.value)
    else do
      let l ← labelAt (next + offset.value - 2)
      return .jump l
  else fail (.nonConstantOffset offset.kind)

/-- The call with arguments from the value stack. -/
def stackCall (address count : Operand) : InPlace Binder Expr :=
  if count.kind = .constant ∧ count.value ≤ maxInlineArguments then do
    let address ← load address
    return .call address (List.replicate count.value.toNat .pop)
  else do
    let address ← load address
    let count ← load count
    return .callCounted address count

/-- **The statement of an instruction** whose label is placed. -/
def arm (i : Instr) : InPlace Binder Unit :=
  match i.opcode.action, i.loads, i.stores with
  | some .nop, [], [] => return ()
  | some (.arith op), [l, r], [d] => do
    let l ← load l
    let r ← load r
    store d (.arith op l r)
  | some .negate, [v], [d] => do
    let v ← load v
    store d (Expr.minus (.const 0) v)
  | some .jump, [offset], [] => do
    let jump ← jumpStmt offset i.next
    add jump
  | some (.branchZero op), [v, offset], [] => do
    let v ← load v
    let jump ← jumpStmt offset i.next
    add (.branch (.compare op v (.const 0)) jump)
  | some (.branch op), [l, r, offset], [] => do
    let l ← load l
    let r ← load r
    let jump ← jumpStmt offset i.next
    add (.branch (.compare op l r) jump)
  | some .call, [address, count], [d] => do
    let call ← stackCall address count
    store d call
  | some (.callFixed n), address :: args, [d] =>
    if args.length = n then do
      let address ← load address
      let args ← args.mapM load
      store d (.call address args)
    else fail (.unsupportedOpcode i.opcode.name i.opcode.number)
  | some .ret, [v], [] => do
    let v ← load v
    add (.ret v)
  | some (.copy w), [v], [d] => do
    let v ← load v w
    store d (Scope.narrowed w v) w
  | some (.signExtend w), [v], [d] => do
    let v ← load v
    store d (.convert w true v)
  | some (.loadElement w), [base, offset], [d] => do
    let base ← load base
    let offset ← load offset
    store d (.load w (elementAddress w base offset))
  | some (.storeElement w), [base, offset, v], [] => do
    let base ← load base
    let offset ← load offset
    let v ← load v
    add (.store w (elementAddress w base offset) v)
  | some .copyStack, [count], [] => do
    let count ← load count
    add (.copyStack count)
  | some .putChar, [v], [] => do
    let v ← load v
    add (.putChar v)
  | some .putNumber, [v], [] => do
    let v ← load v
    add (.putNumber v)
  | some .putString, [v], [] => do
    let v ← load v
    add (.putString v)
  | some .memorySize, [], [d] => store d .memorySize
  | some .quit, [], [] => add .quit
  | some .restoreUndo, [], [_] => add .restoreUndo
  | some .glk, [selector, count], [d] => do
    let selector ← load selector
    let count ← load count
    store d (.glk [selector, count])
  | _, _, _ => fail (.unsupportedOpcode i.opcode.name i.opcode.number)

/-- **Binds an instruction in place**: creates its label if need be and places it, then appends its
statement. -/
def bindInstr (i : Instr) : InPlace Binder Unit := do
  let l ← labelAt i.address
  mark l
  arm i

/-! ## What steps come to -/

theorem runFrom_labelAt (address : UInt32) (b : Binder) :
    (labelAt address).runFrom b = (.ok (b.labelAt address).1, (b.labelAt address).2) := rfl

theorem runFrom_mark (l : Label) (b : Binder) : (mark l).runFrom b =
    match b.draft.mark l with
    | .ok draft => (.ok (), { b with draft := draft })
    | .error fault => (.error fault, b) := by
  change (match b.draft.mark l with
    | .ok draft => set { b with draft := draft }
    | .error fault => throw fault : InPlace Binder Unit).runFrom b = _
  cases b.draft.mark l <;> rfl

/-- **The action only asks the scope.** -/
def Looks (x : InPlace Binder α) (f : Scope → Except DecodeFault α) : Prop :=
  ∀ b, x.runFrom b = ((f b.scope).mapError (.decode b.routine), b)

/-- **The action asks the scope for an effect and appends that.** If it fails the binder is as it
was. -/
def Appends (x : InPlace Binder Unit) (f : Scope → Except DecodeFault Effect) : Prop :=
  ∀ b, x.runFrom b = match f b.scope with
    | .ok e => (.ok (), b.append e)
    | .error cause => (.error (.decode b.routine cause), b)

namespace Looks

variable {x : InPlace Binder α} {f : Scope → Except DecodeFault α}

theorem ask (f : Scope → Except DecodeFault α) : Looks (ask f) f := by
  intro b
  change (match f b.scope with
    | .ok a => pure a
    | .error cause => fail cause : InPlace Binder α).runFrom b = _
  cases f b.scope <;> rfl

theorem pure (a : α) : Looks (Pure.pure a) fun _ => .ok a := fun _ => rfl

theorem bind {g : α → InPlace Binder β} {h : α → Scope → Except DecodeFault β} (hx : Looks x f)
    (hg : ∀ a, Looks (g a) (h a)) : Looks (x >>= g) fun s => f s >>= fun a => h a s := by
  intro b
  dsimp only
  rw [runFrom_bind, hx b]
  cases f b.scope with
  | error cause => rfl
  | ok a => exact hg a b

theorem load (o : Operand) (w : Width) : Looks (load o w) (·.fetch o w) := .ask _

/-- Operands are loaded from left to right. -/
theorem mapM_load (os : List Operand) :
    Looks (os.mapM fun o => InPlace.load o) fun s => os.mapM fun o => s.fetch o := by
  induction os with
  | nil => exact .pure []
  | cons o os ih =>
    simp only [List.mapM_cons]
    exact .bind (.load o .dword) fun e => .bind ih fun es => .pure (e :: es)

end Looks

namespace Appends

theorem nothing : Appends (pure ()) fun _ => .ok .nop := fun _ => rfl

theorem add (s : Stmt) : Appends (add s) fun _ => .ok (.stmt s) := fun _ => rfl

theorem fail {cause : DecodeFault} {f : Scope → Except DecodeFault Effect}
    (h : ∀ s, f s = .error cause) : Appends (fail cause) f := by
  intro b
  rw [h b.scope]
  rfl

/-- What is asked for first, the effect may depend on. -/
theorem bind {x : InPlace Binder α} {f : Scope → Except DecodeFault α} {g : α → InPlace Binder Unit}
    {h : α → Scope → Except DecodeFault Effect} (hx : Looks x f) (hg : ∀ a, Appends (g a) (h a)) :
    Appends (x >>= g) fun s => f s >>= fun a => h a s := by
  intro b
  dsimp only
  rw [runFrom_bind, hx b]
  cases f b.scope with
  | error cause => rfl
  | ok a => exact hg a b

theorem store (o : Operand) (value : Expr) (w : Width) :
    Appends (store o value w) fun s => s.assign o value w := by
  unfold InPlace.store Scope.assign
  cases o.kind with
  | constant =>
    dsimp only
    split
    · exact .add _
    · exact .fail fun _ => rfl
  | address => exact .add _
  | stack => exact .add _
  | localSlot => exact .bind (.ask _) fun var => .add _
  | ram => exact fun b => rfl

/-- **A jump**, to a label that is created if need be: nothing can fail once it is. -/
theorem jump (offset : Operand) (next : UInt32) :
    Appends (jumpStmt offset next >>= InPlace.add)
      fun _ => Destination.toEffect <$> offset.destination next := by
  unfold jumpStmt Operand.destination
  split
  · split
    · exact fun b => rfl
    · exact fun b => rfl
  · exact fun b => rfl

/-- A jump under a condition. -/
theorem branch (cond : Expr) (offset : Operand) (next : UInt32) :
    Appends (jumpStmt offset next >>= fun s => InPlace.add (.branch cond s))
      fun _ => (·.toBranch cond) <$> offset.destination next := by
  unfold jumpStmt Operand.destination
  split
  · split
    · exact fun b => rfl
    · exact fun b => rfl
  · exact fun b => rfl

/-- A call with as many arguments as the opcode says. -/
theorem callFixed (n : Nat) (address : Operand) (args : List Operand) (d : Operand)
    (cause : DecodeFault) :
    Appends
      (if args.length = n then do
        let address ← load address
        let args ← args.mapM load
        InPlace.store d (.call address args)
      else InPlace.fail cause)
      fun s =>
        if args.length = n then do
          let address ← s.fetch address
          let args ← args.mapM s.fetch
          s.assign d (.call address args)
        else .error cause := by
  split
  · exact .bind (.load _ _) fun a => .bind (.mapM_load _) fun args => .store _ _ _
  · exact .fail fun _ => rfl

end Appends

theorem looks_stackCall (address count : Operand) :
    Looks (stackCall address count) (·.stackCall address count) := by
  unfold stackCall Scope.stackCall
  split
  · exact .bind (.load _ _) fun a => .pure _
  · exact .bind (.load _ _) fun a => .bind (.load _ _) fun c => .pure _

/-- **Each arm appends what the instruction stands for.** -/
theorem appends_arm (i : Instr) : Appends (arm i) (·.lower i) := by
  unfold arm Scope.lower
  dsimp only
  generalize i.opcode.action = action, i.loads = loads, i.stores = stores
  split
  · exact .nothing
  · exact .bind (.load _ _) fun l => .bind (.load _ _) fun r => .store _ _ _
  · exact .bind (.load _ _) fun v => .store _ _ _
  · exact .jump _ _
  · exact .bind (.load _ _) fun v => .branch _ _ _
  · exact .bind (.load _ _) fun l => .bind (.load _ _) fun r => .branch _ _ _
  · exact .bind (looks_stackCall _ _) fun call => .store _ _ _
  · exact .callFixed _ _ _ _ _
  · exact .bind (.load _ _) fun v => .add _
  · exact .bind (.load _ _) fun v => .store _ _ _
  · exact .bind (.load _ _) fun v => .store _ _ _
  · exact .bind (.load _ _) fun b => .bind (.load _ _) fun o => .store _ _ _
  · exact .bind (.load _ _) fun b => .bind (.load _ _) fun o => .bind (.load _ _) fun v => .add _
  · exact .bind (.load _ _) fun v => .add _
  · exact .bind (.load _ _) fun v => .add _
  · exact .bind (.load _ _) fun v => .add _
  · exact .bind (.load _ _) fun v => .add _
  · exact .store _ _ _
  · exact .add _
  · exact .add _
  · exact .bind (.load _ _) fun sel => .bind (.load _ _) fun count => .store _ _ _
  · -- No row fits, neither here nor there.
    exact .fail fun _ => by simp only

/-! ## The whole instruction -/

/-- A label that was created just now can be placed. So if placing fails, none was created. -/
theorem eq_of_mark_error {b b' : Binder} {address : UInt32} {l : Label} {f : Fault}
    (hat : b.labelAt address = (l, b')) (h : b'.draft.mark l = .error f) : b' = b := by
  unfold Binder.labelAt at hat
  split at hat
  · cases hat
    rfl
  · cases hat
    simp [Draft.mark] at h

/-- **Binding in place comes to placing the label and appending the effect**, for every binder and
every instruction, and leaves the same binder behind when it fails. -/
theorem runFrom_bindInstr (b : Binder) (i : Instr) : (bindInstr i).runFrom b = b.bind i := by
  rcases hat : b.labelAt i.address with ⟨l, b'⟩
  have hplace : b.place i.address = do return { b' with draft := ← b'.draft.mark l } := by
    rw [Binder.place, hat]
  rw [bindInstr, runFrom_bind, runFrom_labelAt, hat, Binder.bind, hplace]
  dsimp only
  rw [runFrom_bind, runFrom_mark]
  cases hmark : b'.draft.mark l with
  | error f =>
    obtain rfl := eq_of_mark_error hat hmark
    rfl
  | ok draft =>
    refine (appends_arm i _).trans ?_
    dsimp only [Bind.bind, Except.bind, Pure.pure, Except.pure]
    cases b'.scope.lower i <;> rfl

end Binder.InPlace

end StoryVM
