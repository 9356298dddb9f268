import SigilCall.Call.Event

namespace SigilCall

structure Run (α : Type) where
  events : List Event
  result : Except CallError α

namespace Run

protected def pure {α : Type} (a : α) : Run α := ⟨[], .ok a⟩

protected def bind {α β : Type} (r : Run α) (f : α → Run β) : Run β :=
  match r.result with
  | .ok a =>
      let s := f a
      ⟨r.events ++ s.events, s.result⟩
  | .error e => ⟨r.events, .error e⟩

protected def map {α β : Type} (f : α → β) (r : Run α) : Run β := ⟨r.events, r.result.map f⟩

instance : Monad Run where
  pure := Run.pure
  bind := Run.bind
  map := Run.map

def fail {α : Type} (e : CallError) : Run α := ⟨[], .error e⟩

def emit (e : Event) : Run Unit := ⟨[e], .ok ()⟩

variable {α β : Type}

@[simp] theorem bind_ok {es : List Event} {a : α} {f : α → Run β} :
    (⟨es, .ok a⟩ : Run α) >>= f = ⟨es ++ (f a).events, (f a).result⟩ := rfl

@[simp] theorem bind_error {es : List Event} {x : CallError} {f : α → Run β} :
    (⟨es, .error x⟩ : Run α) >>= f = ⟨es, .error x⟩ := rfl

@[simp] theorem emit_bind {e : Event} {f : Unit → Run β} :
    emit e >>= f = ⟨e :: (f ()).events, (f ()).result⟩ := rfl

@[simp] theorem events_pure (a : α) : (pure a : Run α).events = [] := rfl

@[simp] theorem result_pure (a : α) : (pure a : Run α).result = .ok a := rfl

@[simp] theorem events_fail (e : CallError) : (fail e : Run α).events = [] := rfl

@[simp] theorem result_fail (e : CallError) : (fail e : Run α).result = .error e := rfl

@[simp] theorem map_eq_map (f : α → β) (r : Run α) : f <$> r = r.map f := rfl

@[simp] theorem map_ok {es : List Event} {a : α} {f : α → β} :
    (⟨es, .ok a⟩ : Run α).map f = ⟨es, .ok (f a)⟩ := rfl

@[simp] theorem map_error {es : List Event} {x : CallError} {f : α → β} :
    (⟨es, .error x⟩ : Run α).map f = ⟨es, .error x⟩ := rfl

theorem exists_of_bind_eq_ok {r : Run α} {f : α → Run β} {b : β}
    (h : (r >>= f).result = .ok b) : ∃ a, r.result = .ok a ∧ (f a).result = .ok b := by
  obtain ⟨es, a | a⟩ := r
  · cases h
  · exact ⟨a, rfl, h⟩

end Run

end SigilCall
