import StreamCodec.Accelerator.Driver
import StreamCodec.Outcome

namespace StreamCodec.Accelerator

/-- The sessions of one thread, by the names of their drivers. A session stays for
as long as the thread does. -/
structure Registry (κ : Type) where
  sessions : List (String × κ)
  /-- A call is under way on one of the sessions or to open one. -/
  inUse : Bool

namespace Registry

variable {δ η κ α : Type}

def empty : Registry κ := ⟨[], false⟩

def find? (registry : Registry κ) (name : String) : Option κ :=
  registry.sessions.lookup name

def put (registry : Registry κ) (name : String) (session : κ) : Registry κ :=
  { registry with
    sessions :=
      (name, session) :: registry.sessions.filter fun entry => entry.1 != name }

/-- While the registry is in use it cannot be looked at, and the answer is yes. -/
def hasSession (registry : Registry κ) (name : String) : Bool :=
  registry.inUse || (registry.find? name).isSome

def enter (registry : Registry κ) : Registry κ :=
  { registry with inUse := true }

@[simp] theorem find?_put_self (registry : Registry κ) (name : String)
    (session : κ) : (registry.put name session).find? name = some session := by
  simp [find?, put]

theorem find?_put_of_ne (registry : Registry κ) (session : κ)
    {name other : String} (different : other ≠ name) :
    (registry.put name session).find? other = registry.find? other := by
  have unequal : (other == name) = false := by simpa using different
  simp only [find?, put, List.lookup_cons, unequal]
  induction registry.sessions with
  | nil => rfl
  | cons entry rest induction =>
      rcases entry with ⟨key, held⟩
      by_cases same : key = name
      · have skipped : (other == key) = false := by simpa [same] using different
        simp [same, List.lookup_cons, unequal, induction]
      · simp [same, List.lookup_cons, induction]

end Registry

def alreadyInUse [Driver δ η κ] (driver : δ) : CodecError :=
  .invalidState (.sessionInUse (Driver.name driver))

/-- Carries a callback out. The registry is in use meanwhile, so that none of the
calls it makes gets as far as a session. -/
def Dialogue.run [Driver δ η κ] (registry : Registry κ) :
    Dialogue δ η α → η → α × η
  | .done answer, host => (answer, host)
  | .read next, host => (next host).run registry host
  | .write host next, _ => next.run registry host
  | .compress driver _ _ next, host =>
      (next (.error (alreadyInUse driver))).run registry host
  | .decompress driver _ room next, host =>
      (next (if room = 0 then .ok [] else .error (alreadyInUse driver))).run
        registry host
  | .hasSession name next, host =>
      (next (registry.enter.hasSession name)).run registry host

namespace Registry

variable {δ η κ α : Type} [Driver δ η κ]

def useSession (registry : Registry κ) (host : η) (name : String) (session : κ)
    (use : κ → Dialogue δ η (α × κ)) (log : List Log.Event) :
    Outcome (Registry κ × η) α :=
  match (use session).run registry host with
  | ((answer, session), host) =>
      ⟨.ok answer, (registry.put name session, host), log⟩

/-- Uses this thread's session for the driver, which is opened first if there is
none of that name. A session that cannot be opened leaves the registry as it was. -/
def withSession (registry : Registry κ) (host : η) (driver : δ)
    (use : κ → Dialogue δ η (α × κ)) : Outcome (Registry κ × η) α :=
  let name := Driver.name driver
  if registry.inUse then ⟨.error (alreadyInUse driver), (registry, host), []⟩
  else
    match registry.find? name with
    | some session => registry.useSession host name session use []
    | none =>
        match (Driver.openSession driver).run registry host with
        | (.error failure, host) =>
            ⟨.error (.backendInit name (.session failure)), (registry, host), []⟩
        | (.ok session, host) =>
            (registry.put name session).useSession host name session use
              [.sessionOpened name]

end Registry

end StreamCodec.Accelerator
