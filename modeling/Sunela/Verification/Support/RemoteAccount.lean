import Sunela.Model.Open
import Sunela.Model.RmtSession

/-! # A remote session with one account -/

namespace Sunela.Remote

open Fields Entry

/-- The account "a" with a password. -/
def account (pw : Bytes) : Tree :=
  .node ⟨1, .cons 97 (by decide) .empty, 1, 12, false,
    [.ofData ftId [97], .ofData ftUser [117], .ofData ftPw pw]⟩ .nil .nil

/-- The page has been opened for the first time. -/
def openedSession (entries : Tree) : Session :=
  { rmt := rmtDbInit (.boot false)
    host := {
      rdb := ⟨.idle, 0, 0, [], []⟩
      ui := ⟨false, none, 0, .remote⟩
      db := { Database.dbOpenEmpty with entries }
      timeOffset := 0 } }

end Sunela.Remote
