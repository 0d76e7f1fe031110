import ChainKit.Abi.Context

namespace ChainKit.Abi.Context
set_option autoImplicit true

/-- What a client can ask of a context. A contract that is not named is the empty name. -/
inductive Operation where
  | setAbi (contract : Name) (json : String)
  | setDocument (contract : Name) (d : Document)
  | setBinary (contract : Name) (bs : Bytes)
  | setHex (contract : Name) (hex : String)
  | remove (contract : Name)
  | actionType (contract action : Name)
  | tableType (contract table : Name)
  | encodeText (contract : Name) (type json : String)
  | encode (contract : Name) (type : String) (v : Json)
  | decode (contract : Name) (type : String) (bs : Bytes)
  | decodeHex (contract : Name) (type hex : String)
  | serialize (contract : Option Name) (actionOrType json : String) (d : Document)
  | deserialize (contract : Option Name) (actionOrType hex : String) (d : Document)
  | packTransaction (v : Json)
  | unpackTransaction (bs : Bytes)
  | serializeTransaction (json : String)
  | deserializeTransaction (hex : String)
  | serializeAbi (d : Document)
  | deserializeAbi (bs : Bytes)
  | nameValue (s : String)
  | clearError

inductive Reply where
  | loaded (c : Contract)
  | removed (found : Bool)
  | type (name : String)
  | bytes (bs : Bytes)
  | value (v : Json)
  | document (d : Document)
  | word (w : UInt64)
  | done

abbrev Outcome := Except Error Reply

namespace Operation

def perform : Operation → Op Reply
  | setAbi k json => .loaded <$> Context.setAbi k json
  | setDocument k d => .loaded <$> Context.setDocument k d
  | setBinary k bs => .loaded <$> Context.setBinary k bs
  | setHex k hex => .loaded <$> Context.setHex k hex
  | remove k => .removed <$> Context.remove k
  | actionType k action => .type <$> Context.actionType k action
  | tableType k table => .type <$> Context.tableType k table
  | encodeText k type json => .bytes <$> Context.encodeText k type json
  | encode k type v => .bytes <$> Context.encode k type v
  | decode k type bs => .value <$> Context.decode k type bs
  | decodeHex k type hex => .value <$> Context.decodeHex k type hex
  | serialize k? name json d => .bytes <$> Context.serialize (k?.getD .empty) name json d
  | deserialize k? name hex d => .value <$> Context.deserialize (k?.getD .empty) name hex d
  | packTransaction v => .bytes <$> Context.packTransaction v
  | unpackTransaction bs => .value <$> Context.unpackTransaction bs
  | serializeTransaction json => .bytes <$> Context.serializeTransaction json
  | deserializeTransaction hex => .value <$> Context.deserializeTransaction hex
  | serializeAbi d => .bytes <$> Context.serializeAbi d
  | deserializeAbi bs => .document <$> Context.deserializeAbi bs
  | nameValue s => .word <$> Context.nameValue s
  | clearError => do
    modify Context.clearError
    return .done

def isClear : Operation → Bool
  | clearError => true
  | _ => false

end Operation

def step (c : Context) (o : Operation) : Outcome × Context :=
  match o.perform c with
  | .ok a c => (.ok a, c)
  | .error e c => (.error e, c)

/-- The outcomes of a machine on a list of inputs, and the state behind them. -/
def run (step : σ → ι → ο × σ) (s : σ) : List ι → List ο × σ
  | [] => ([], s)
  | i :: is =>
    let first := step s i
    let rest := run step first.2 is
    (first.1 :: rest.1, rest.2)

/-- A relation that each step keeps, with the same outcome on both sides, is kept by each run. -/
theorem run_related {R : σ → τ → Prop} (step : σ → ι → ο × σ) (step' : τ → ι → ο × τ)
    (hstep : ∀ s t i, R s t → (step s i).1 = (step' t i).1 ∧ R (step s i).2 (step' t i).2)
    (h : R s t) (is : List ι) :
    (run step s is).1 = (run step' t is).1 ∧ R (run step s is).2 (run step' t is).2 := by
  induction is generalizing s t with
  | nil => exact ⟨rfl, h⟩
  | cons i is ih =>
    obtain ⟨hfirst, hnext⟩ := hstep s t i h
    obtain ⟨hrest, hlast⟩ := ih hnext
    refine ⟨?_, hlast⟩
    simp only [run, hfirst, hrest]

theorem run_append (step : σ → ι → ο × σ) (s : σ) (is js : List ι) :
    run step s (is ++ js) =
      ((run step s is).1 ++ (run step (run step s is).2 js).1,
        (run step (run step s is).2 js).2) := by
  induction is generalizing s with
  | nil => rfl
  | cons i is ih => simp only [List.cons_append, run, ih]

theorem length_run (step : σ → ι → ο × σ) (s : σ) (is : List ι) :
    (run step s is).1.length = is.length := by
  induction is generalizing s with
  | nil => rfl
  | cons i is ih => simp only [run, List.length_cons, ih]

def settle (r : Except Error α) (c : Context) : EStateM.Result Error Context α :=
  match r with
  | .ok a => .ok a c
  | .error e => .error e c

def put (c : Context) (k : Name) (r : Except Error Contract) : Context :=
  match r with
  | .ok l => { c with contracts := c.contracts.insert k l }
  | .error _ => c

def noting (c : Context) (r : Except Error α) : Context :=
  match r with
  | .ok _ => c
  | .error e => { c with lastError := some e.message }

variable {c c' : Context} {x : Op α} {r : Except Error α}

theorem settle_map (f : α → β) (h : x c = settle r c') : (f <$> x) c = settle (f <$> r) c' := by
  change EStateM.map f x c = _
  simp only [EStateM.map, h]
  cases r <;> rfl

/-- An operation behind another one that keeps the context it finds. -/
theorem settle_bind {f : α → Op β} {g : α → Except Error β} (h : x c = settle r c')
    (hf : ∀ a, f a c' = settle (g a) c') : (x >>= f) c = settle (r >>= g) c' := by
  cases r with
  | error e => simp only [bind, EStateM.bind, h, settle, Except.bind]
  | ok a =>
    change _ = settle (g a) c'
    rw [← hf a]
    simp only [bind, EStateM.bind, h, settle]

theorem settle_bind_put {f : α → Op β} {g : α → Except Error β} {l : α → Except Error Contract}
    (h : x c = settle r c) (hf : ∀ a, f a c = settle (g a) (c.put k (l a))) :
    (x >>= f) c = settle (r >>= g) (c.put k (r >>= l)) := by
  cases r with
  | error e => simp only [bind, EStateM.bind, h, settle, Except.bind, put]
  | ok a =>
    change _ = settle (g a) (c.put k (l a))
    rw [← hf a]
    simp only [bind, EStateM.bind, h, settle]

theorem settle_recorded (h : x c = settle r c') :
    recorded x c = settle r (c'.noting r) := by
  cases r <;> simp only [recorded, h, settle, noting]

theorem settle_noting_eq_ok : settle r (c.noting r) = .ok a c' ↔ r = .ok a ∧ c' = c := by
  cases r with
  | ok b =>
    constructor
    · intro h
      cases h
      exact ⟨rfl, rfl⟩
    · rintro ⟨h, rfl⟩
      cases h
      rfl
  | error e =>
    constructor
    · intro h
      cases h
    · rintro ⟨h, -⟩
      cases h

theorem settle_noting_eq_error :
    settle r (c.noting r) = .error e c' ↔ r = .error e ∧ c' = c.noting r := by
  cases r with
  | ok b =>
    constructor
    · intro h
      cases h
    · rintro ⟨h, -⟩
      cases h
  | error e' =>
    constructor
    · intro h
      cases h
      exact ⟨rfl, rfl⟩
    · rintro ⟨h, rfl⟩
      cases h
      rfl

theorem step_eq {o : Operation} {r : Outcome} (h : o.perform c = settle r c') :
    step c o = (r, c') := by
  cases r <;> simp only [step, h, settle]

theorem lift_apply (r : Except Error α) : lift r c = settle r c := by
  cases r <;> rfl

theorem get_bind (f : Context → Op α) (c : Context) : (get >>= f) c = f c c := rfl

theorem limits_bind (f : Config → Op α) (c : Context) : (limits >>= f) c = f c.config c := rfl

theorem unpackDocument_apply (bs : Bytes) :
    unpackDocument bs c = settle (Document.unpack c.config bs) c := by
  rw [unpackDocument, limits_bind, lift_apply]

theorem packDocument_apply (d : Document) :
    (limits >>= fun config => lift (d.pack config)) c = settle (d.pack c.config) c := by
  rw [limits_bind, lift_apply]

theorem encodeWith_apply (l : Contract) (type : String) (v : Json) :
    encodeWith l type v c = settle (l.encode c.config type v) c := by
  rw [encodeWith, limits_bind, lift_apply]

theorem decodeWith_apply (l : Contract) (type : String) (bs : Bytes) :
    decodeWith l type bs c = settle (l.decode c.config type bs) c := by
  rw [decodeWith, limits_bind, lift_apply]

end ChainKit.Abi.Context
