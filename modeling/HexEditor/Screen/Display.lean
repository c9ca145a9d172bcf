import HexEditor.Screen.View

/-!
# What the editor shows

The screen shows the current session with the mode, the last notice and the
prompt of the editor.  Drawing may scroll the session, so it gives a new state as
well.
-/

namespace HexEditor

namespace Editor

/-- The last row of the screen. -/
def status (ed : Editor) : Status where
  mode := ed.mode.name ed.count
  message := ed.notice.message
  prompt := ed.mode.promptLine?
  index := ed.workspace.current
  count := ed.workspace.sessions.length

/-- Draw the current session.  There is no answer if no session is open. -/
def display? (ed : Editor) (g : Grid) : Option (Editor × Grid) :=
  ed.workspace.current?.map fun s =>
    let (g, topRow) := g.render s s.topRow ed.view ed.status
    (ed.modifySession fun s => { s with topRow }, g)

end Editor

end HexEditor
