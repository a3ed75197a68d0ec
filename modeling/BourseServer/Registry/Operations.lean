import BourseServer.Machine.Exec

/-!
# The client registry

The functions of `client_registry.c` that register and unregister a client, wait for the
registry to be empty and shut all clients down. `P` and `V` are `semWait` and `semPost`.
-/
namespace BourseServer

open Concurrency

def searchForEmptySlot : Code (Option Nat) := do
  let n ← regSize
  Prog.search n fun i => do
    let fd ← regFd i
    if fd = -1 then pure (some i) else pure none

/-- The exit without an empty slot releases neither semaphore. -/
def cregRegister (fd : Int) : Code Int := do
  semWait .slots
  semWait .mutex
  match ← searchForEmptySlot with
  | none => pure (-1)
  | some index => do
    setRegFd index fd
    let count ← regCount
    setRegCount (count + 1)
    let count ← regCount
    if count = 1 then semWait .countMutex else pure ()
    semPost .mutex
    semPost .items
    pure 0

def cregUnregister (fd : Int) : Code Int := do
  semWait .items
  semWait .mutex
  let n ← regSize
  let found ← Prog.search n fun i => do
    let cur ← regFd i
    if cur = fd then do
      setRegFd i (-1)
      let count ← regCount
      setRegCount (count - 1)
      let count ← regCount
      if count = 0 then semPost .countMutex else pure ()
      semPost .mutex
      semPost .slots
      pure (some ())
    else pure none
  match found with
  | some _ => pure 0
  | none => do
    semPost .mutex
    semPost .slots
    pure (-1)

def cregWaitForEmpty : Code Unit := semWait .countMutex

def cregShutdownAll : Code Unit := do
  semWait .mutex
  let n ← regSize
  let _ ← Prog.search (α := Unit) n fun i => do
    let fd ← regFd i
    shutdown fd
    pure none
  semPost .mutex

end BourseServer
