import Mathlib.Logic.Hydra
import ScaleCalls.Proofs.Solidity.Evaluate

/-!
# Evaluation step by step

Running generated code goes from expressions to values in an encoding, and from these through
codec libraries to their fields and elements. Nothing is asked of the libraries: one may apply
itself, be missing, or be declared twice. This module has the same work as a machine that knows
nothing about where it leads: it keeps the bytes so far and the tasks that wait, and performs
the first of them in each step.

What goes down is the value. A library replaces a value by its fields or elements, and looking
up a field or an operand is a step of its own, so a whole run is a game against a hydra: a task
is replaced by finitely many smaller ones.

## Main definitions

- `Value.Within` — a value that is a strict part of another
- `SourceUnit.Step`, `SourceUnit.Stops` — one step, and where there is none
- `SourceUnit.answer` — what a task comes down to

## Main statements

- `SourceUnit.answer_eq` — performing a task keeps what it comes down to
- `SourceUnit.within_of_transGen` — a library leads to strict parts of its value only
- `SourceUnit.wellFounded_step` — no evaluation goes on for ever
- `SourceUnit.evaluation_ends` — every evaluation ends, and with what
-/

namespace ScaleCalls.Solidity

/-! ## Parts of values -/

namespace Value

/-- An element of a list, or the value of a field of a record. -/
inductive PartOf : Value → Value → Prop
  | element {item : Value} {items : List Value} (h : item ∈ items) : PartOf item (.list items)
  | field {name : String} {v : Value} {fields : List (String × Value)}
      (h : (name, v) ∈ fields) : PartOf v (.record fields)

/-- A value that lies inside another one, at any depth. -/
def Within : Value → Value → Prop := Relation.TransGen PartOf

variable {v value : Value} {name : String}

theorem PartOf.sizeOf_lt (h : v.PartOf value) : sizeOf v < sizeOf value := by
  cases h with
  | element h =>
    have := List.sizeOf_lt_of_mem h
    simp
    omega
  | field h =>
    have := List.sizeOf_lt_of_mem h
    simp at this ⊢
    omega

theorem wellFounded_partOf : WellFounded PartOf :=
  Subrelation.wf PartOf.sizeOf_lt (measure sizeOf).wf

theorem partOf_of_field (h : value.field name = .ok v) : v.PartOf value := by
  cases value with
  | record fields =>
    obtain ⟨before, after, rfl, -⟩ := List.lookup_eq_some_iff.1 (field_record.1 h)
    exact .field (List.mem_append_right _ List.mem_cons_self)
  | _ => cases h

end Value

/-- Something that is still to be turned into bytes. -/
inductive Task where
  | call (function : String) (args : List Value)
  /-- The encoded fields of a value of an enum. -/
  | payload (enumType variant : String) (args : List Value)
  /-- An expression, where these parameters are bound. -/
  | expr (env : List (String × Value)) (e : Expr)
  /-- A field of a value, in its encoding. -/
  | field (encoding : Encoding) (name : String) (value : Value)
  | encode (encoding : Encoding) (value : Value)

/-- What a task turns into bytes is a value that lies inside another value. -/
def Task.Inside (value : Value) : Task → Prop
  | .field _ name v => ∀ w, v.field name = .ok w → w.Within value
  | .encode _ w => w.Within value
  | _ => False

/-- An evaluation on its way: the bytes so far, and the tasks that wait, the next one first. -/
structure Evaluation where
  out : Bytes
  waiting : List Task

namespace SourceUnit

/-- What a library that encodes in this way makes of a value. -/
def expand (value : Value) : CodecBody → Except EvalFault Evaluation
  | .record fields => .ok ⟨[], fields.map fun p => .field p.encoding p.name value⟩
  | .tagged _ => do return ⟨← encodeTagged value, []⟩
  | .sequence elem prefixed bound len =>
    match value with
    | .list items => do
      checkLength bound len items.length
      return ⟨lengthBytes prefixed items.length, items.map (.encode elem)⟩
    | other => .error (other.mismatch "list")
  | .optional inner => do
    if ← isSome value then return ⟨[1], [.field inner "value" value]⟩
    else return ⟨Scale.option none, []⟩

/-- What performing a task gives: some bytes, and the tasks that follow them. -/
def perform (unit : SourceUnit) : Task → Except EvalFault Evaluation
  | .call name args =>
    match unit.function? name with
    | none => .error (.unknownFunction name)
    | some f => do return ⟨[], [.expr (← bind name f.params args) f.body]⟩
  | .payload enumType variant args => do
    let c ← unit.constructor? enumType variant
    return ⟨[], [.expr (← bind c.name c.params args) c.payload]⟩
  | .expr _ (.callIndex index) => .ok ⟨Scale.callIndex index.group index.call, []⟩
  | .expr env (.encode encoding source) => do
    return ⟨[], [.encode encoding (← operand env source)]⟩
  | .expr env (.concat parts) => .ok ⟨[], parts.map (.expr env)⟩
  | .field encoding name value => do return ⟨[], [.encode encoding (← value.field name)]⟩
  | .encode (.codec name) value =>
    match unit.codec? name with
    | none => .error (.unknownCodec name)
    | some codec => expand value codec.body
  | .encode encoding value => do return ⟨← encodeScalar encoding value, []⟩

theorem perform_scalar {unit : SourceUnit} {encoding : Encoding} {value : Value}
    (h : ∀ name, encoding ≠ .codec name) :
    unit.perform (.encode encoding value) =
      (do return ⟨← encodeScalar encoding value, []⟩) := by
  rw [perform]
  exact h

/-- A task that follows from performing another one. -/
def SpawnedBy (unit : SourceUnit) (child parent : Task) : Prop :=
  ∃ made, unit.perform parent = .ok made ∧ child ∈ made.waiting

/-- The next task is performed, and those that follow from it are next. -/
inductive Step (unit : SourceUnit) : Evaluation → Evaluation → Prop
  | perform {out : Bytes} {task : Task} {rest : List Task} {made : Evaluation}
      (h : unit.perform task = .ok made) :
      Step unit ⟨out, task :: rest⟩ ⟨out ++ made.out, made.waiting ++ rest⟩

/-- Nothing is left to do, or the next task fails. -/
inductive Stops (unit : SourceUnit) : Evaluation → Except EvalFault Bytes → Prop
  | done {out : Bytes} : Stops unit ⟨out, []⟩ (.ok out)
  | fails {out : Bytes} {task : Task} {rest : List Task} {fault : EvalFault}
      (h : unit.perform task = .error fault) : Stops unit ⟨out, task :: rest⟩ (.error fault)

/-- An evaluation comes, by some number of steps, to a stop with this result. -/
def EndsWith (unit : SourceUnit) (start : Evaluation) (result : Except EvalFault Bytes) : Prop :=
  ∃ last, Relation.ReflTransGen unit.Step start last ∧ unit.Stops last result

variable {unit : SourceUnit} {value w : Value} {encoding encoding' : Encoding}
  {now next : Evaluation} {result : Except EvalFault Bytes} {task child parent : Task}

/-! ## What a task comes down to -/

/-- The bytes that a task comes down to. -/
def answer (unit : SourceUnit) : Task → Except EvalFault Bytes
  | .call name args => unit.call name args
  | .payload enumType variant args => do
    let c ← unit.constructor? enumType variant
    unit.expr (← bind c.name c.params args) c.payload
  | .expr env e => unit.expr env e
  | .field encoding name value => do unit.encode encoding (← value.field name)
  | .encode encoding value => unit.encode encoding value

/-- The bytes of several tasks, one after the other. -/
def answers (unit : SourceUnit) : List Task → Except EvalFault Bytes
  | [] => .ok []
  | task :: tasks => do return (← unit.answer task) ++ (← unit.answers tasks)

/-- What an evaluation comes down to from here on. -/
def outcome (unit : SourceUnit) (now : Evaluation) : Except EvalFault Bytes := do
  return now.out ++ (← unit.answers now.waiting)

theorem answers_append (unit : SourceUnit) (first second : List Task) :
    unit.answers (first ++ second) =
      (do return (← unit.answers first) ++ (← unit.answers second)) := by
  induction first with
  | nil => exact (bind_pure (unit.answers second)).symm
  | cons task tasks ih =>
    rw [List.cons_append, answers, answers, ih]
    simp only [bind_assoc, pure_bind, List.append_assoc]

theorem answers_map {α : Type} (unit : SourceUnit) (f : α → Task) (as : List α) :
    unit.answers (as.map f) =
      (do
        let parts ← as.mapM fun a => unit.answer (f a)
        return parts.flatten) := by
  induction as with
  | nil => rfl
  | cons a as ih => simp [answers, ih]

theorem answers_map_expr (unit : SourceUnit) (env : List (String × Value)) (parts : List Expr) :
    unit.answers (parts.map (.expr env)) = unit.exprs env parts := by
  induction parts with
  | nil =>
    rw [exprs]
    rfl
  | cons part parts ih =>
    rw [List.map_cons, answers, exprs, ih]
    rfl

@[simp] theorem outcome_nil (unit : SourceUnit) (out : Bytes) :
    unit.outcome ⟨out, []⟩ = pure out :=
  congrArg Except.ok out.append_nil

@[simp] theorem outcome_waiting (unit : SourceUnit) (tasks : List Task) :
    unit.outcome ⟨[], tasks⟩ = unit.answers tasks :=
  bind_pure (unit.answers tasks)

@[simp] theorem answers_singleton (unit : SourceUnit) (task : Task) :
    unit.answers [task] = unit.answer task := by
  change (do return (← unit.answer task) ++ []) = _
  simp only [List.append_nil, bind_pure]

/-- The bytes of a value are those of what its library makes of it. -/
theorem encodeBody_eq (unit : SourceUnit) (value : Value) (body : CodecBody) :
    unit.encodeBody value body = expand value body >>= unit.outcome := by
  cases body with
  | record fields =>
    change _ = unit.outcome ⟨[], _⟩
    rw [outcome_waiting, answers_map]
    rfl
  | tagged tag =>
    rw [encodeBody, expand]
    cases encodeTagged value with
    | error fault => rfl
    | ok bytes => exact (outcome_nil unit bytes).symm
  | sequence elem prefixed bound len =>
    cases value with
    | list items =>
      rw [encodeBody, expand]
      simp [outcome, answers_map, answer]
    | _ => rfl
  | optional inner =>
    rw [encodeBody, expand, bind_assoc]
    congr 1
    funext b
    cases b with
    | false => rfl
    | true =>
      simp [outcome, answer]
      rfl

/-- Performing a task keeps what it comes down to. -/
theorem answer_eq (unit : SourceUnit) (task : Task) :
    unit.answer task = unit.perform task >>= unit.outcome := by
  cases task with
  | call name args =>
    rw [answer, call, perform]
    cases unit.function? name with
    | none => rfl
    | some f => simp [answer]
  | payload enumType variant args => simp [answer, perform]
  | expr env e =>
    cases e with
    | callIndex index =>
      rw [answer, expr, perform]
      exact (outcome_nil unit _).symm
    | encode encoding source => simp [answer, expr, perform]
    | concat parts =>
      rw [answer, expr, perform, ← answers_map_expr]
      exact (outcome_waiting unit _).symm
  | field encoding name value => simp [answer, perform]
  | encode encoding value =>
    cases encoding with
    | codec name =>
      rw [answer, perform]
      cases hcodec : unit.codec? name with
      | none =>
        rw [encode, hcodec]
        rfl
      | some codec => rw [encode_codec hcodec, encodeBody_eq]
    | _ =>
      rw [answer, encode_scalar (by simp), perform_scalar (by simp)]
      simp

theorem answer_eq_error {fault : EvalFault} (h : unit.perform task = .error fault) :
    unit.answer task = .error fault := by
  rw [answer_eq, h]
  rfl

theorem answer_eq_outcome {made : Evaluation} (h : unit.perform task = .ok made) :
    unit.answer task = unit.outcome made := by
  rw [answer_eq, h]
  rfl

/-! ## Steps and stops -/

/-- A step keeps what the evaluation comes down to. -/
theorem Step.outcome_eq (h : unit.Step now next) : unit.outcome now = unit.outcome next := by
  obtain ⟨h⟩ := h
  simp only [outcome, answers, answers_append, answer_eq_outcome h, bind_assoc, pure_bind,
    List.append_assoc]

theorem Stops.outcome_eq (h : unit.Stops now result) : unit.outcome now = result := by
  cases h with
  | done => exact outcome_nil unit _
  | fails h =>
    rw [outcome, answers, answer_eq_error h]
    rfl

/-- An evaluation that does not stop has a step. -/
theorem exists_step_or_stops (unit : SourceUnit) (now : Evaluation) :
    (∃ next, unit.Step now next) ∨ ∃ result, unit.Stops now result := by
  obtain ⟨out, waiting⟩ := now
  cases waiting with
  | nil => exact .inr ⟨_, .done⟩
  | cons task rest =>
    cases h : unit.perform task with
    | error fault => exact .inr ⟨_, .fails h⟩
    | ok made => exact .inl ⟨_, .perform h⟩

theorem outcome_eq_of_steps (h : Relation.ReflTransGen unit.Step now next) :
    unit.outcome now = unit.outcome next := by
  induction h with
  | refl => rfl
  | tail _ hstep ih => exact ih.trans hstep.outcome_eq

/-! ## What a task leads to -/

theorem exists_of_spawnedBy_field {name : String}
    (h : unit.SpawnedBy child (.field encoding name value)) :
    ∃ w, value.field name = .ok w ∧ child = .encode encoding w := by
  obtain ⟨made, hperform, hchild⟩ := h
  obtain ⟨w, hw, hperform⟩ := bind_eq_ok.1 hperform
  cases hperform
  exact ⟨w, hw, List.mem_singleton.1 hchild⟩

/-- A library leads to fields or elements of its value. -/
theorem inside_of_expand {body : CodecBody} {made : Evaluation}
    (h : expand value body = .ok made) (hchild : child ∈ made.waiting) :
    child.Inside value := by
  have hfield (encoding : Encoding) (name : String) :
      (Task.field encoding name value).Inside value :=
    fun w hw => Relation.TransGen.single (Value.partOf_of_field hw)
  cases body with
  | record fields =>
    cases h
    obtain ⟨p, -, rfl⟩ := List.mem_map.1 hchild
    exact hfield p.encoding p.name
  | tagged tag =>
    obtain ⟨bytes, -, h⟩ := bind_eq_ok.1 h
    cases h
    cases hchild
  | sequence elem prefixed bound len =>
    cases value with
    | list items =>
      obtain ⟨-, -, h⟩ := bind_eq_ok.1 h
      cases h
      obtain ⟨item, hitem, rfl⟩ := List.mem_map.1 hchild
      exact Relation.TransGen.single (.element hitem)
    | _ => cases h
  | optional inner =>
    obtain ⟨b, -, h⟩ := bind_eq_ok.1 h
    cases b with
    | false =>
      cases h
      cases hchild
    | true =>
      cases h
      obtain rfl := List.mem_singleton.1 hchild
      exact hfield inner "value"

theorem inside_of_spawnedBy_encode (h : unit.SpawnedBy child (.encode encoding value)) :
    child.Inside value := by
  obtain ⟨made, hperform, hchild⟩ := h
  cases encoding with
  | codec name =>
    rw [perform] at hperform
    split at hperform
    · cases hperform
    · exact inside_of_expand hperform hchild
  | _ =>
    rw [perform_scalar (by simp)] at hperform
    obtain ⟨bytes, -, hperform⟩ := bind_eq_ok.1 hperform
    cases hperform
    cases hchild

/-- A task about something inside a value only leads to tasks about things inside it. -/
theorem inside_of_spawnedBy (hparent : parent.Inside value)
    (h : unit.SpawnedBy child parent) : child.Inside value := by
  cases parent with
  | field encoding name v =>
    obtain ⟨w, hw, rfl⟩ := exists_of_spawnedBy_field h
    exact hparent w hw
  | encode encoding w =>
    have hchild := inside_of_spawnedBy_encode h
    cases child with
    | field encoding name v => exact fun u hu => (hchild u hu).trans hparent
    | encode encoding u => exact hchild.trans hparent
    | _ => cases hchild
  | _ => cases hparent

/-- Between two libraries that are applied one within the other, the value becomes a strict
part of what it was. -/
theorem within_of_transGen
    (h : Relation.TransGen unit.SpawnedBy (.encode encoding w) (.encode encoding' value)) :
    w.Within value := by
  suffices hinside : ∀ task, Relation.TransGen unit.SpawnedBy task (.encode encoding' value) →
      task.Inside value from hinside _ h
  intro task htask
  induction htask using Relation.TransGen.head_induction_on with
  | single hlast => exact inside_of_spawnedBy_encode hlast
  | head hfirst _ ih => exact inside_of_spawnedBy ih hfirst

/-! ## Evaluation ends -/

theorem acc_encode (unit : SourceUnit) (value : Value) (encoding : Encoding) :
    Acc unit.SpawnedBy (.encode encoding value) := by
  induction value using Value.wellFounded_partOf.transGen.induction generalizing encoding with
  | _ value ih =>
    refine ⟨_, fun child hchild => ?_⟩
    have hinside := inside_of_spawnedBy_encode hchild
    cases child with
    | encode encoding w => exact ih w hinside encoding
    | field encoding name v =>
      refine ⟨_, fun grandchild hgrandchild => ?_⟩
      obtain ⟨w, hw, rfl⟩ := exists_of_spawnedBy_field hgrandchild
      exact ih w (hinside w hw) encoding
    | _ => cases hinside

/-- An expression leads to its parts, and in the end to values in an encoding. -/
theorem acc_expr (unit : SourceUnit) (env : List (String × Value)) (e : Expr) :
    Acc unit.SpawnedBy (.expr env e) := by
  refine ⟨_, fun child ⟨made, hperform, hchild⟩ => ?_⟩
  cases e with
  | callIndex index =>
    cases hperform
    cases hchild
  | encode encoding source =>
    obtain ⟨v, -, hperform⟩ := bind_eq_ok.1 hperform
    cases hperform
    obtain rfl := List.mem_singleton.1 hchild
    exact acc_encode unit v encoding
  | concat parts =>
    cases hperform
    obtain ⟨part, hpart, rfl⟩ := List.mem_map.1 hchild
    exact acc_expr unit env part
termination_by e

/-- No chain of tasks, each of which follows from performing the one before, is endless. -/
theorem wellFounded_spawnedBy (unit : SourceUnit) : WellFounded unit.SpawnedBy := by
  refine ⟨fun task => ?_⟩
  cases task with
  | expr env e => exact acc_expr unit env e
  | encode encoding value => exact acc_encode unit value encoding
  | field encoding name value =>
    refine ⟨_, fun child hchild => ?_⟩
    obtain ⟨w, -, rfl⟩ := exists_of_spawnedBy_field hchild
    exact acc_encode unit w encoding
  | payload enumType variant args =>
    refine ⟨_, fun child ⟨made, hperform, hchild⟩ => ?_⟩
    obtain ⟨c, -, hperform⟩ := bind_eq_ok.1 hperform
    obtain ⟨env, -, hperform⟩ := bind_eq_ok.1 hperform
    cases hperform
    obtain rfl := List.mem_singleton.1 hchild
    exact acc_expr unit env c.payload
  | call name args =>
    refine ⟨_, fun child ⟨made, hperform, hchild⟩ => ?_⟩
    rw [perform] at hperform
    split at hperform
    · cases hperform
    · obtain ⟨env, -, hperform⟩ := bind_eq_ok.1 hperform
      cases hperform
      obtain rfl := List.mem_singleton.1 hchild
      exact acc_expr unit env _

/-- No evaluation goes on for ever: a step replaces a task by tasks that follow from it. -/
theorem wellFounded_step (unit : SourceUnit) :
    WellFounded fun next now => unit.Step now next := by
  have hcut : WellFounded (Relation.CutExpand unit.SpawnedBy) :=
    unit.wellFounded_spawnedBy.cutExpand
  refine Subrelation.wf (fun {next now} hstep => ?_)
    (InvImage.wf (fun now : Evaluation => (now.waiting : Multiset Task)) hcut)
  obtain @⟨out, task, rest, made, h⟩ := hstep
  refine ⟨made.waiting, task, fun child hchild => ⟨made, h, by simpa using hchild⟩, ?_⟩
  simp only [← Multiset.coe_add, ← Multiset.cons_coe, ← Multiset.singleton_add]
  ac_rfl

/-- Every evaluation ends, and with what it comes down to. -/
theorem endsWith_iff (unit : SourceUnit) (start : Evaluation) (result : Except EvalFault Bytes) :
    unit.EndsWith start result ↔ result = unit.outcome start := by
  constructor
  · rintro ⟨last, hsteps, hstops⟩
    exact (outcome_eq_of_steps hsteps ▸ hstops.outcome_eq).symm
  · rintro rfl
    induction start using unit.wellFounded_step.induction with
    | _ start ih =>
      obtain ⟨next, hstep⟩ | ⟨result, hstops⟩ := unit.exists_step_or_stops start
      · obtain ⟨last, hsteps, hstops⟩ := ih next hstep
        exact ⟨last, .head hstep hsteps, hstep.outcome_eq ▸ hstops⟩
      · exact ⟨start, .refl, hstops.outcome_eq ▸ hstops⟩

/-- Whatever a unit declares, evaluation ends: there is no endless sequence of steps, a call, a
value in a codec library and the fields of a constructor each come to a stop with the one result
that evaluation gives, and between two libraries that are applied one within the other the value
becomes a strict part of what it was. -/
theorem evaluation_ends (unit : SourceUnit) :
    (WellFounded fun next now => unit.Step now next) ∧
    (∀ name args result,
      unit.EndsWith ⟨[], [.call name args]⟩ result ↔ result = unit.call name args) ∧
    (∀ codec value result, unit.EndsWith ⟨[], [.encode (.codec codec) value]⟩ result ↔
      result = unit.applyCodec codec value) ∧
    (∀ enumType variant args, ∃ payload,
      (∀ result, unit.EndsWith ⟨[], [.payload enumType variant args]⟩ result ↔
        result = payload) ∧
      unit.construct enumType variant args = (do
        let c ← unit.constructor? enumType variant
        return .tagged c.discriminant (← payload))) ∧
    ∀ codec value codec' w,
      Relation.TransGen unit.SpawnedBy (.encode (.codec codec') w)
        (.encode (.codec codec) value) → w.Within value := by
  refine ⟨unit.wellFounded_step, fun name args result => ?_, fun codec value result => ?_,
    fun enumType variant args => ⟨_, fun result => unit.endsWith_iff _ result, ?_⟩,
    fun codec value codec' w h => within_of_transGen h⟩
  · rw [endsWith_iff, outcome_waiting, answers_singleton]
    rfl
  · rw [endsWith_iff, outcome_waiting, answers_singleton]
    rfl
  · rw [outcome_waiting, answers_singleton, construct_eq_make, answer]
    cases unit.constructor? enumType variant with
    | error fault => rfl
    | ok c =>
      change unit.make c args = (do
        let payload ← bind c.name c.params args >>= fun env => unit.expr env c.payload
        return .tagged c.discriminant payload)
      rw [bind_assoc]
      rfl

/-- A unit with one library, which applies itself: a chain is empty, or goes around a chain. -/
def chainUnit : SourceUnit where
  group := "Chains"
  library := "ChainCalls"
  declarations := [.codec ⟨"ChainCodec", "Chain", .named "Chain", .optional (.codec "ChainCodec"),
    []⟩]
  functions := []
  skipped := []

theorem evaluation_ends_chain :
    let codec := "ChainCodec"
    let empty := Value.option none
    let link := Value.option (some empty)
    Relation.TransGen chainUnit.SpawnedBy (.encode (.codec codec) empty)
        (.encode (.codec codec) link) ∧
      empty.Within link ∧ chainUnit.EndsWith ⟨[], [.encode (.codec codec) link]⟩ (.ok [1, 0]) := by
  intro codec empty link
  obtain ⟨-, -, hends, -, hwithin⟩ := evaluation_ends chainUnit
  have hfield : chainUnit.SpawnedBy (.field (.codec codec) "value" link)
      (.encode (.codec codec) link) := ⟨_, rfl, List.mem_singleton_self _⟩
  have hempty : chainUnit.SpawnedBy (.encode (.codec codec) empty)
      (.field (.codec codec) "value" link) := ⟨_, rfl, List.mem_singleton_self _⟩
  have hspawned := Relation.TransGen.head hempty (.single hfield)
  have hbytes : chainUnit.applyCodec codec link = .ok [1, 0] := by
    rw [applyCodec, encode_some rfl rfl fun _ _ h => h, encode_none rfl rfl fun _ _ h => h]
    rfl
  exact ⟨hspawned, hwithin codec link codec empty hspawned,
    (hends codec link (.ok [1, 0])).2 hbytes.symm⟩

end SourceUnit

end ScaleCalls.Solidity
