import TizenClaw.JsonValue
import Mathlib.Logic.Function.Basic

/-! User profiles and the binding of sessions to users. No caller changes a profile while the
agent runs, so the profile table is a constant of a run and only the binding is state. -/
namespace UserProfileStore

open ByteString JsonValue

inductive UserRole where
  | guest
  | child
  | member
  | admin
  deriving DecidableEq, Repr

/-- The numbering of the enumeration, from the least trusted role up. -/
def UserRole.rank : UserRole → ℕ
  | .guest => 0
  | .child => 1
  | .member => 2
  | .admin => 3

structure UserProfile where
  userId : Bytes
  name : Bytes
  role : UserRole := .guest
  preferences : Json := .null
  voiceId : Bytes := []

abbrev Profiles := List (Bytes × UserProfile)

/-- `session_user_map_` -/
abbrev SessionUserMap := Bytes → Option Bytes

/-- An unknown user is a guest. -/
def getProfile (profiles : Profiles) (userId : Bytes) : UserProfile :=
  (profiles.lookup userId).getD
    { userId := if userId = [] then bytes "guest_default" else userId, name := bytes "Guest" }

/-- The empty user for a session that is not bound. -/
def getUserIdForSession (m : SessionUserMap) (session : Bytes) : Bytes := (m session).getD []

def bindSession (m : SessionUserMap) (session userId : Bytes) : SessionUserMap :=
  Function.update m session (some userId)

/-- The role a call of the session gets. -/
def sessionRole (profiles : Profiles) (m : SessionUserMap) (session : Bytes) : UserRole :=
  (getProfile profiles (getUserIdForSession m session)).role

@[simp] theorem getUserIdForSession_bind_self (m : SessionUserMap) (session userId : Bytes) :
    getUserIdForSession (bindSession m session userId) session = userId := by
  simp [getUserIdForSession, bindSession]

theorem getUserIdForSession_bind_other (m : SessionUserMap) {session other : Bytes}
    (h : other ≠ session) (userId : Bytes) :
    getUserIdForSession (bindSession m session userId) other = getUserIdForSession m other := by
  simp [getUserIdForSession, bindSession, h]

end UserProfileStore
